import ExtensibleCheck.Registry.Workspace
import ExtensibleCheck.Stages
import ExtensibleCheck.Script.Session
import ExtensibleCheck.Script.Network
import ExtensibleCheck.Program.Creation
import ExtensibleCheck.Proofs.Session.Broadcast
import ExtensibleCheck.Proofs.Walk.Brackets
import ExtensibleCheck.Proofs.Walk.Scopes
import ExtensibleCheck.Proofs.Walk.Ownership
import ExtensibleCheck.Proofs.Session.Changes
import ExtensibleCheck.Proofs.Walk.Dealings
import ExtensibleCheck.Proofs.Session.Entries
import ExtensibleCheck.Proofs.Walk.Mistakes
import ExtensibleCheck.Proofs.Walk.Typing
import ExtensibleCheck.Proofs.Registry.Chronicle
import ExtensibleCheck.Proofs.Registry.Traversal
import ExtensibleCheck.Proofs.Dispatch.Poll
import ExtensibleCheck.Proofs.Dispatch.LiveView
import ExtensibleCheck.Proofs.Network.Composition
import ExtensibleCheck.Proofs.Session.Unfolding
import ExtensibleCheck.Proofs.Walk.Trail
import ExtensibleCheck.Proofs.Walk.Reach
import ExtensibleCheck.Proofs.Walk.Marks
import ExtensibleCheck.Proofs.Walk.Hooks
import ExtensibleCheck.Proofs.Walk.Coverage
import ExtensibleCheck.Proofs.Walk.Selection
import ExtensibleCheck.Proofs.Walk.Resolution
import ExtensibleCheck.Proofs.Syntax.Order
import ExtensibleCheck.Proofs.Walk.Sequence
import ExtensibleCheck.Proofs.Session.Abreast
import ExtensibleCheck.Proofs.Walk.Pace
import ExtensibleCheck.Proofs.Session.Convoy
import ExtensibleCheck.Proofs.Session.Beside
import ExtensibleCheck.Proofs.Registry.Insertion
import ExtensibleCheck.Proofs.Walk.Bystander
import ExtensibleCheck.Proofs.Session.Answers
import ExtensibleCheck.Proofs.Session.Spared
import ExtensibleCheck.Proofs.Walk.Opinions
import ExtensibleCheck.Proofs.Session.Involvement
import ExtensibleCheck.Proofs.Walk.Failures
import ExtensibleCheck.Proofs.Walk.Sites
import ExtensibleCheck.Proofs.Walk.Verdict
import ExtensibleCheck.Proofs.Session.Hearings
import ExtensibleCheck.Proofs.Walk.Steps
import ExtensibleCheck.Proofs.Walk.Reasons
import ExtensibleCheck.Proofs.Walk.Provenance
import ExtensibleCheck.Proofs.Walk.Verbosity
import ExtensibleCheck.Proofs.Session.Apart
import ExtensibleCheck.Proofs.Walk.Files
import ExtensibleCheck.Proofs.Walk.Room
import ExtensibleCheck.Proofs.Dispatch.Questions
import ExtensibleCheck.Proofs.Dispatch.Candidates
import ExtensibleCheck.Proofs.Dispatch.News
import ExtensibleCheck.Proofs.Walk.Inquiries
import ExtensibleCheck.Proofs.Walk.Accesses
import ExtensibleCheck.Proofs.Walk.TypesInForce
import ExtensibleCheck.Proofs.Walk.Instantiations
import ExtensibleCheck.Proofs.Program.Creation
import ExtensibleCheck.Proofs.Registry.Algebra
import ExtensibleCheck.Proofs.Syntax.Reports
import ExtensibleCheck.Proofs.Text.Lines
import ExtensibleCheck.Proofs.Text.Locations
import ExtensibleCheck.Proofs.Program.Findings
