import Reckoner.Function.Stock
import Reckoner.Proofs.Extent.Complete
import Reckoner.Proofs.Machine.Discipline
import Reckoner.Proofs.Machine.Hidden
import Reckoner.Proofs.Machine.Limited
import Reckoner.Proofs.Machine.Untaken
import Reckoner.Proofs.Session.Suffix
import Reckoner.Proofs.Session.Frames
import Reckoner.Proofs.Session.Held
import Reckoner.Proofs.Session.Present
import Reckoner.Proofs.Walk.Runs
import Reckoner.Session.Basic
import Reckoner.Token.Extent
import Reckoner.Proofs.Function.Registration
import Reckoner.Proofs.Scope.Chain
import Reckoner.Proofs.Session.Reports
import Reckoner.Proofs.Token.Bytes
import Reckoner.Proofs.Token.Segments
import Reckoner.Proofs.Decimal.Written
import Reckoner.Proofs.Text.Escape
import Reckoner.Proofs.Grammar.Written
import Reckoner.Proofs.Program.Accepted
import Reckoner.Proofs.Session.Division
import Reckoner.Proofs.Token.Literals
import Reckoner.Proofs.Token.Faults
import Reckoner.Proofs.Token.Rendered
import Reckoner.Proofs.Grammar.Signs
import Reckoner.Proofs.Value.Power
import Reckoner.Proofs.Function.Signature
import Reckoner.Proofs.Session.Definitions
import Reckoner.Proofs.Machine.Narrowing
import Reckoner.Proofs.Value.Coercion
import Reckoner.Proofs.Grammar.Cursor
import Reckoner.Proofs.Session.Names
