import OwnScript.Host
import OwnScript.Config.Reader
import OwnScript.Program.Names
import OwnScript.Proofs.Machine.Schedules
import OwnScript.Proofs.Host.Schedules
import OwnScript.Proofs.Host.Confinement
import OwnScript.Proofs.Lowering.Wellformed
import OwnScript.Proofs.Lowering.Visibility
import OwnScript.Proofs.Stack.Programs
import OwnScript.Proofs.Host.Limits
import OwnScript.Proofs.Stack.Instances
import OwnScript.Proofs.Host.Quiescence
import OwnScript.Proofs.Host.Reuse
import OwnScript.Proofs.Analysis.Resolution
import OwnScript.Proofs.Host.Retries
import OwnScript.Proofs.Stack.Clauses
import OwnScript.Proofs.Stack.Independence
import OwnScript.Proofs.Globals.Programs
import OwnScript.Proofs.Meaning.Scripts
import OwnScript.Proofs.Machine.Positions
import OwnScript.Proofs.Host.SharedCells
import OwnScript.Proofs.Analysis.Settling
import OwnScript.Proofs.Config.Merging
import OwnScript.Proofs.Analysis.Borrows
import OwnScript.Proofs.Analysis.Isolation
import OwnScript.Proofs.Analysis.Repetition
import OwnScript.Proofs.Host.Records
import OwnScript.Proofs.Loops.Programs
import OwnScript.Proofs.Machine.Integers
import OwnScript.Proofs.Code.Listings
