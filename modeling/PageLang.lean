import PageLang.Analysis
import PageLang.Compilation
import PageLang.Lint.Debugger
import PageLang.Mask.Cache
import PageLang.Proofs.Document.Agreement
import PageLang.Proofs.Document.Comments
import PageLang.Proofs.Document.Origins
import PageLang.Proofs.Hierarchy.Classes
import PageLang.Proofs.Include.Lines
import PageLang.Proofs.Include.Splice
import PageLang.Proofs.Include.Stack
import PageLang.Proofs.Inheritance.Precedence
import PageLang.Proofs.Mask.Nested
import PageLang.Proofs.Mask.Tokens
import PageLang.Proofs.MaskedText.Bodies
import PageLang.Proofs.MaskedText.Cells
import PageLang.Proofs.MaskedText.Occurrences
import PageLang.Proofs.MaskedText.Ranges
import PageLang.Proofs.Path.Normalize
import PageLang.Proofs.Qualify.Events
import PageLang.Proofs.Qualify.Flatten
import PageLang.Proofs.Qualify.Found
import PageLang.Proofs.Qualify.Fragment
import PageLang.Proofs.Qualify.Functions
import PageLang.Proofs.Qualify.Head
import PageLang.Proofs.Qualify.Keyword
import PageLang.Proofs.Qualify.Layout
import PageLang.Proofs.Qualify.Lines
import PageLang.Proofs.Qualify.Misread
import PageLang.Proofs.Qualify.Pieces
import PageLang.Proofs.Qualify.Reading
import PageLang.Proofs.Qualify.Reference
import PageLang.Proofs.Qualify.Scoping
import PageLang.Proofs.Qualify.Shadowed
import PageLang.Proofs.Qualify.Spelling
import PageLang.Proofs.Qualify.Twice
import PageLang.Proofs.Qualify.Whole
import PageLang.Proofs.RoundTrip.Block
import PageLang.Proofs.RoundTrip.Body
import PageLang.Proofs.RoundTrip.Classes
import PageLang.Proofs.RoundTrip.Declaration
import PageLang.Proofs.RoundTrip.Files
import PageLang.Proofs.RoundTrip.Gap
import PageLang.Proofs.RoundTrip.Member
import PageLang.Proofs.RoundTrip.Tree
import PageLang.Proofs.Script.Recogniser
import PageLang.Proofs.Text.Trim
import PageLang.Proofs.Document.Recovery
import PageLang.Proofs.Inheritance.Access
import PageLang.Proofs.Element.Ways
import PageLang.Proofs.Document.Bodies
import PageLang.Proofs.Include.Own
import PageLang.Proofs.Document.Flags
import PageLang.Proofs.Inheritance.Walk
import PageLang.Proofs.Mask.Queries
import PageLang.Proofs.Include.Opaque
import PageLang.Proofs.Document.Refused
import PageLang.Proofs.Inheritance.Anonymous
import PageLang.Proofs.Inheritance.Local
import PageLang.Proofs.Inheritance.Tag
import PageLang.Proofs.Script.OpenBlocks
import PageLang.Proofs.Declaration.ScalarText
import PageLang.Proofs.Declaration.ParameterList
import PageLang.Proofs.Script.Expression
import PageLang.Proofs.ClassTable.Extent
import PageLang.Proofs.ClassTable.UniqueNames
import PageLang.Proofs.Hierarchy.GlobalNames
import PageLang.Proofs.MaskedText.FirstLive
import PageLang.Proofs.Element.Spans
import PageLang.Proofs.Mask.Overwritten
import PageLang.Proofs.Mask.Causal
import PageLang.Proofs.Path.Location
import PageLang.Proofs.Lint.Places
import PageLang.Proofs.Document.Copies
import PageLang.Proofs.Text.Order
import PageLang.Proofs.Path.Join
import PageLang.Proofs.MaskedText.Nesting
import PageLang.Proofs.Mask.Characters
import PageLang.Proofs.Declaration.Counted
