import Countermodels.Cnf.Order
import Countermodels.Main
import Countermodels.State.Word
import Countermodels.Proofs.Cnf.Sharing
import Countermodels.Proofs.Cnf.Exactness
import Countermodels.Proofs.Sat.Enumerate
import Countermodels.Proofs.Sat.Promises
import Countermodels.Proofs.Sat.Lesson
import Countermodels.Proofs.Sat.Termination
import Countermodels.Proofs.Sat.Queue
import Countermodels.Proofs.Formula.Render
import Countermodels.Proofs.Formula.Parts
import Countermodels.Proofs.Formula.Occurrence
import Countermodels.Proofs.Formula.Symbols
import Countermodels.Proofs.Formula.Mistakes
import Countermodels.Proofs.State.Count
import Countermodels.Proofs.History.Description
import Countermodels.Proofs.History.Perpetuity
import Countermodels.Proofs.Truthmaker.Description
import Countermodels.Proofs.Truthmaker.Imposition
import Countermodels.Proofs.Truthmaker.GroundOrder
import Countermodels.Proofs.Truthmaker.Rigidity
import Countermodels.Proofs.Check.Support
import Countermodels.Proofs.Check.Feasible
import Countermodels.Proofs.Batch.Run
import Countermodels.Proofs.Settings
