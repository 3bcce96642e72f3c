import ParameterChain.Main
import ParameterChain.Dialogue
import ParameterChain.Proofs.Chain
import ParameterChain.Proofs.Arms
import ParameterChain.Proofs.Commit
import ParameterChain.Proofs.Outline
import ParameterChain.Proofs.Built
import ParameterChain.Proofs.Load
import ParameterChain.Proofs.Run
import ParameterChain.Proofs.Visible
import ParameterChain.Proofs.Grammar
import ParameterChain.Proofs.Typed
import ParameterChain.Proofs.Sound
import ParameterChain.Proofs.Edited
import ParameterChain.Proofs.Dependencies
import ParameterChain.Proofs.Notices
import ParameterChain.Proofs.Features
import ParameterChain.Proofs.Clock
import ParameterChain.Proofs.Attempts
import ParameterChain.Proofs.Dialogues
import ParameterChain.Proofs.Failed
import ParameterChain.Proofs.Deliveries
import ParameterChain.Proofs.Catalogue
import ParameterChain.Proofs.Linearization
import ParameterChain.Proofs.Refusals
import ParameterChain.Proofs.Shown
import ParameterChain.Proofs.Conflicts
import ParameterChain.Proofs.Reads
import ParameterChain.Proofs.Unused
import ParameterChain.Proofs.Measured
import ParameterChain.Proofs.Uniform
import ParameterChain.Proofs.Categories
import ParameterChain.Proofs.Matching
import ParameterChain.Proofs.Moved
import ParameterChain.Proofs.Overlay
import ParameterChain.Proofs.Trials
import ParameterChain.Proofs.OneType
import ParameterChain.Proofs.Rows
import ParameterChain.Proofs.Reordered
import ParameterChain.Proofs.DeclarationOrder
import ParameterChain.Proofs.InheritedUnit
import ParameterChain.Proofs.Origin
import ParameterChain.Proofs.Twins
import ParameterChain.Proofs.Inherited
import ParameterChain.Proofs.LoadedAlike
import ParameterChain.Proofs.IncludeOrder
import ParameterChain.Proofs.Questions
import ParameterChain.Proofs.Depth
import ParameterChain.Proofs.HandedDown
import ParameterChain.Proofs.Syntax
import ParameterChain.Proofs.Lexemes
import ParameterChain.Proofs.Parsing
import ParameterChain.Proofs.Accepted
import ParameterChain.Proofs.Unambiguous
import ParameterChain.Proofs.Admission
import ParameterChain.Proofs.SelfReference
import ParameterChain.Proofs.Census
import ParameterChain.Proofs.Visits
import ParameterChain.Proofs.FirstPaths
import ParameterChain.Proofs.Overwritten
import ParameterChain.Proofs.History
import ParameterChain.Proofs.FeatureNames
import ParameterChain.Proofs.FeatureEntries
import ParameterChain.Proofs.Lengths
import ParameterChain.Proofs.InPlace
import ParameterChain.Proofs.Tokens
import ParameterChain.Proofs.Display
import ParameterChain.Proofs.Records
import ParameterChain.Proofs.WrittenRecords
import ParameterChain.Proofs.Nameable
import ParameterChain.Proofs.Cloned
import ParameterChain.Proofs.CommentLines
import ParameterChain.Proofs.DeclarationIndex
import ParameterChain.Proofs.ReservedNames
import ParameterChain.Proofs.Queries
import ParameterChain.Proofs.FailureFiles
import ParameterChain.Proofs.SetCommand
import ParameterChain.Proofs.TableLines
import ParameterChain.Proofs.Spaced
import ParameterChain.Proofs.Literals
import ParameterChain.Proofs.Pointwise
import ParameterChain.Proofs.DoubleOrder
import ParameterChain.Proofs.StepTable
