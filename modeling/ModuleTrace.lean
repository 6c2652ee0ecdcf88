import ModuleTrace.Main
import ModuleTrace.Proofs.Bytes.Classification
import ModuleTrace.Proofs.Extraction.Escapes
import ModuleTrace.Proofs.Extraction.Inclusions
import ModuleTrace.Proofs.Json.Relaxation
import ModuleTrace.Proofs.Memory.Sources
import ModuleTrace.Proofs.Project.Aliases
import ModuleTrace.Proofs.Project.Inheritance
import ModuleTrace.Proofs.Resolution.BareNames
import ModuleTrace.Proofs.Resolution.Inquiries
import ModuleTrace.Proofs.Resolution.Precedence
import ModuleTrace.Proofs.Resolution.SelfReferences
import ModuleTrace.Proofs.Resolution.Spellings
import ModuleTrace.Proofs.Resolution.WaysOut
import ModuleTrace.Proofs.Suite.Compositionality
import ModuleTrace.Proofs.Suite.Snapshots
import ModuleTrace.Proofs.Suite.Uniqueness
import ModuleTrace.Proofs.Syntax.Problems
import ModuleTrace.Proofs.Traversal.Containment
import ModuleTrace.Proofs.Traversal.Disks
import ModuleTrace.Proofs.Traversal.Limits
import ModuleTrace.Proofs.Traversal.Normalization
import ModuleTrace.Proofs.Traversal.Problems
import ModuleTrace.Proofs.Traversal.Reachability
import ModuleTrace.Proofs.Traversal.Refusal
import ModuleTrace.Proofs.Traversal.Roots
import ModuleTrace.Proofs.Traversal.Schemes
import ModuleTrace.Proofs.Workspace.Evidence
import ModuleTrace.Proofs.Workspace.Innermost
import ModuleTrace.Proofs.Workspace.Members
