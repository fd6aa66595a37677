import UtilityCss.ClassName.Scan
import UtilityCss.Diagnostic.Decode
import UtilityCss.Generator.Basic
import UtilityCss.Registry.Decode
import UtilityCss.Selector.Cursor
import UtilityCss.Selector.Position
import UtilityCss.Theme.Decode
import UtilityCss.Proofs.ClassName.Bracket
import UtilityCss.Proofs.ClassName.Calc
import UtilityCss.Proofs.ClassName.Literal
import UtilityCss.Proofs.ClassName.Scan
import UtilityCss.Proofs.ClassName.Segment
import UtilityCss.Proofs.ClassName.Value
import UtilityCss.Proofs.Composition.Flatten
import UtilityCss.Proofs.Composition.Graph
import UtilityCss.Proofs.Composition.Walk
import UtilityCss.Proofs.Css.Bland
import UtilityCss.Proofs.Css.Cut
import UtilityCss.Proofs.Css.Layout
import UtilityCss.Proofs.Css.Lexeme
import UtilityCss.Proofs.Generator.Batch
import UtilityCss.Proofs.Generator.Cascade
import UtilityCss.Proofs.Generator.ClassRuleset
import UtilityCss.Proofs.Generator.Decision
import UtilityCss.Proofs.Generator.EmissionOrder
import UtilityCss.Proofs.Generator.Exclusion
import UtilityCss.Proofs.Generator.KeyReading
import UtilityCss.Proofs.Generator.LiteralClass
import UtilityCss.Proofs.Generator.LiteralStates
import UtilityCss.Proofs.Generator.ModifiedClass
import UtilityCss.Proofs.Generator.Severity
import UtilityCss.Proofs.Generator.StyleRule
import UtilityCss.Proofs.Generator.Theme
import UtilityCss.Proofs.Generator.Unrelated
import UtilityCss.Proofs.Modifier.Canonical
import UtilityCss.Proofs.Modifier.Sequence
import UtilityCss.Proofs.Modifier.Suggestion
import UtilityCss.Proofs.Modifier.Table
import UtilityCss.Proofs.Name.Map
import UtilityCss.Proofs.Name.Path
import UtilityCss.Proofs.Name.Set
import UtilityCss.Proofs.Registry.Entries
import UtilityCss.Proofs.Registry.Insertion
import UtilityCss.Proofs.Ruleset.Contained
import UtilityCss.Proofs.Ruleset.Entries
import UtilityCss.Proofs.Ruleset.Faithful
import UtilityCss.Proofs.Ruleset.Fit
import UtilityCss.Proofs.Ruleset.LeadingComment
import UtilityCss.Proofs.Ruleset.Mentioned
import UtilityCss.Proofs.Ruleset.Modify
import UtilityCss.Proofs.Ruleset.OnlyRule
import UtilityCss.Proofs.Ruleset.Overlap
import UtilityCss.Proofs.Ruleset.Place
import UtilityCss.Proofs.Ruleset.Positions
import UtilityCss.Proofs.Ruleset.Reads
import UtilityCss.Proofs.Ruleset.Scan
import UtilityCss.Proofs.Ruleset.Search
import UtilityCss.Proofs.Ruleset.Sections
import UtilityCss.Proofs.Ruleset.Stretch
import UtilityCss.Proofs.Ruleset.Transparent
import UtilityCss.Proofs.Selector.Changed
import UtilityCss.Proofs.Selector.ClassToken
import UtilityCss.Proofs.Selector.Comment
import UtilityCss.Proofs.Selector.Compound
import UtilityCss.Proofs.Selector.Conflict
import UtilityCss.Proofs.Selector.Context
import UtilityCss.Proofs.Selector.Cursor
import UtilityCss.Proofs.Selector.Escape
import UtilityCss.Proofs.Selector.Identifier
import UtilityCss.Proofs.Selector.Links
import UtilityCss.Proofs.Selector.Members
import UtilityCss.Proofs.Selector.Modify
import UtilityCss.Proofs.Selector.Position
import UtilityCss.Proofs.Selector.Rejoined
import UtilityCss.Proofs.Selector.Scans
import UtilityCss.Proofs.Selector.Simple
import UtilityCss.Proofs.Selector.Slices
import UtilityCss.Proofs.Selector.Suffix
import UtilityCss.Proofs.Selector.Token
import UtilityCss.Proofs.Selector.Units
import UtilityCss.Proofs.Stylesheet.Changed
import UtilityCss.Proofs.Stylesheet.Reading
import UtilityCss.Proofs.Stylesheet.Tree
import UtilityCss.Proofs.Stylesheet.Written
import UtilityCss.Proofs.Text.Alignment
import UtilityCss.Proofs.Text.Bytes
import UtilityCss.Proofs.Text.EditTable
import UtilityCss.Proofs.Text.Lines
import UtilityCss.Proofs.Text.Order
import UtilityCss.Proofs.Text.Trim
import UtilityCss.Proofs.Theme.ContentHash
import UtilityCss.Proofs.Theme.Cycle
import UtilityCss.Proofs.Theme.Dependency
import UtilityCss.Proofs.Theme.Reference
import UtilityCss.Proofs.Theme.Resolution
import UtilityCss.Proofs.Theme.TableOrder
import UtilityCss.Proofs.Theme.Value
