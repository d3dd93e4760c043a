import OdeModel.Main
import OdeModel.Proofs.Dictionary.Links
import OdeModel.Proofs.Dictionary.Edits
import OdeModel.Proofs.Dictionary.Scan
import OdeModel.Proofs.Text.Runs
import OdeModel.Proofs.Arithmetic.Lexing
import OdeModel.Proofs.Arithmetic.Reading
import OdeModel.Proofs.Dictionary.Keywords
import OdeModel.Proofs.Inlining.Arguments
import OdeModel.Proofs.Inlining.CallValues
import OdeModel.Proofs.Inlining.Meaning
import OdeModel.Proofs.Inlining.Values
import OdeModel.Proofs.Inlining.Operands
import OdeModel.Proofs.Inlining.Capture
import OdeModel.Proofs.Inlining.Completeness
import OdeModel.Proofs.Statement.Defined
import OdeModel.Proofs.Inlining.Cycles
import OdeModel.Proofs.Statement.Accounts
import OdeModel.Proofs.Statement.Decoding
import OdeModel.Proofs.Statement.Lossless
import OdeModel.Proofs.Dictionary.Rebuilding
import OdeModel.Proofs.Statement.Lookup
import OdeModel.Proofs.Inlining.Safety
import OdeModel.Proofs.Inlining.Renumbering
import OdeModel.Proofs.Statement.Kinds
import OdeModel.Proofs.Inlining.Special
import OdeModel.Proofs.Statement.Nesting
import OdeModel.Proofs.Line.Arrays
import OdeModel.Proofs.Line.Tidiness
import OdeModel.Proofs.Line.Unrolling
import OdeModel.Proofs.Line.Emptiness
import OdeModel.Proofs.Dictionary.Staleness
import OdeModel.Proofs.Dictionary.Refusal
import OdeModel.Proofs.Inlining.Simultaneous
import OdeModel.Proofs.Arithmetic.Literals
import OdeModel.Proofs.Arithmetic.Trees
import OdeModel.Proofs.Arithmetic.Exactness
import OdeModel.Proofs.Inlining.RightToLeft
import OdeModel.Proofs.Line.Balance
import OdeModel.Proofs.Text.Cuts
import OdeModel.Proofs.Line.Gaps
import OdeModel.Proofs.Line.Comments
import OdeModel.Proofs.Statement.Rearrangement
import OdeModel.Proofs.Inlining.Frames
import OdeModel.Proofs.Inlining.Exploration
import OdeModel.Proofs.Arithmetic.Failures
import OdeModel.Proofs.Statement.ListColumns
