import PolicyRules.Attempt
import PolicyRules.Effect
import PolicyRules.Entry
import PolicyRules.Error
import PolicyRules.Expr.Basic
import PolicyRules.Expr.Literal
import PolicyRules.Expr.Operator
import PolicyRules.Leaf.Lexeme
import PolicyRules.Leaf.Parse
import PolicyRules.Leaf.Phrase
import PolicyRules.Nesting.Balance
import PolicyRules.Nesting.Pairs
import PolicyRules.ParamType
import PolicyRules.Placeholder
import PolicyRules.Policy
import PolicyRules.Program.Convert
import PolicyRules.Program.Emission
import PolicyRules.Program.Lower
import PolicyRules.Program.RawData
import PolicyRules.Program.Token
import PolicyRules.Proofs.ArgumentFilters
import PolicyRules.Proofs.Atoms
import PolicyRules.Proofs.BracketLanguage
import PolicyRules.Proofs.Bracketings
import PolicyRules.Proofs.BuiltTree
import PolicyRules.Proofs.CallInputs
import PolicyRules.Proofs.CallSources
import PolicyRules.Proofs.CallTokens
import PolicyRules.Proofs.Cleaning
import PolicyRules.Proofs.Code
import PolicyRules.Proofs.CollapsedLevels
import PolicyRules.Proofs.ComponentMerging
import PolicyRules.Proofs.Cuts
import PolicyRules.Proofs.DependencyCycles
import PolicyRules.Proofs.DependencyOrder
import PolicyRules.Proofs.DependencyPaths
import PolicyRules.Proofs.Extraction
import PolicyRules.Proofs.Failures
import PolicyRules.Proofs.GroupCollapse
import PolicyRules.Proofs.GroupOrder
import PolicyRules.Proofs.InStep
import PolicyRules.Proofs.Instruction
import PolicyRules.Proofs.KeywordCuts
import PolicyRules.Proofs.LandmarkOrder
import PolicyRules.Proofs.Landmarks
import PolicyRules.Proofs.Layout
import PolicyRules.Proofs.LeafGrammar
import PolicyRules.Proofs.LeafMeaning
import PolicyRules.Proofs.LeafQuotes
import PolicyRules.Proofs.LeafReading
import PolicyRules.Proofs.LeafTokens
import PolicyRules.Proofs.LevelExpansion
import PolicyRules.Proofs.LevelReading
import PolicyRules.Proofs.Lexing
import PolicyRules.Proofs.LikeLeaves
import PolicyRules.Proofs.LikePhrases
import PolicyRules.Proofs.LikeTrees
import PolicyRules.Proofs.Literals
import PolicyRules.Proofs.LogicalGrammar
import PolicyRules.Proofs.LogicalLevels
import PolicyRules.Proofs.LongestLexemes
import PolicyRules.Proofs.MappedKeys
import PolicyRules.Proofs.MatchedBrackets
import PolicyRules.Proofs.Meaning
import PolicyRules.Proofs.NameBinding
import PolicyRules.Proofs.NameResolution
import PolicyRules.Proofs.NestingDepth
import PolicyRules.Proofs.NormalForm
import PolicyRules.Proofs.NumberValues
import PolicyRules.Proofs.NumericForm
import PolicyRules.Proofs.Operands
import PolicyRules.Proofs.PhraseText
import PolicyRules.Proofs.PlaceholderLists
import PolicyRules.Proofs.PlainTexts
import PolicyRules.Proofs.PlainWords
import PolicyRules.Proofs.Printing
import PolicyRules.Proofs.Quotations
import PolicyRules.Proofs.QuoteBoundaries
import PolicyRules.Proofs.QuotedReferences
import PolicyRules.Proofs.ReadingStages
import PolicyRules.Proofs.Readings
import PolicyRules.Proofs.Recombination
import PolicyRules.Proofs.ReferenceMarks
import PolicyRules.Proofs.Regrouping
import PolicyRules.Proofs.Relabelling
import PolicyRules.Proofs.Respacing
import PolicyRules.Proofs.RoundTrip
import PolicyRules.Proofs.Scanning
import PolicyRules.Proofs.SharedEffects
import PolicyRules.Proofs.SharedPlaceholders
import PolicyRules.Proofs.SharedWorkspaces
import PolicyRules.Proofs.SlotAllocation
import PolicyRules.Proofs.SlotFlow
import PolicyRules.Proofs.SourceTokens
import PolicyRules.Proofs.Stages
import PolicyRules.Proofs.Standing
import PolicyRules.Proofs.StaticEvents
import PolicyRules.Proofs.Stream
import PolicyRules.Proofs.StringData
import PolicyRules.Proofs.StringOpacity
import PolicyRules.Proofs.Success
import PolicyRules.Proofs.TokenBounds
import PolicyRules.Proofs.TokenWords
import PolicyRules.Proofs.TreeFailures
import PolicyRules.Proofs.TreeNames
import PolicyRules.Proofs.TreeTokens
import PolicyRules.Proofs.UnclosedQuotes
import PolicyRules.Proofs.Unnesting
import PolicyRules.Proofs.ViablePrefixes
import PolicyRules.Proofs.WordRange
import PolicyRules.Proofs.Workspaces
import PolicyRules.Proofs.Writings
import PolicyRules.Reference.Argument
import PolicyRules.Reference.Component
import PolicyRules.Reference.Dependency
import PolicyRules.Reference.Extract
import PolicyRules.Reference.ForeignCall
import PolicyRules.Reference.Mark
import PolicyRules.Reference.Tracker
import PolicyRules.Settings
import PolicyRules.Table
import PolicyRules.Text.Basic
import PolicyRules.Text.Blank
import PolicyRules.Text.Digit
import PolicyRules.Text.Integer
import PolicyRules.Text.Printable
import PolicyRules.Text.Quoted
import PolicyRules.Text.Ranges
import PolicyRules.Text.Segment
import PolicyRules.Text.Split
import PolicyRules.Text.Word
import PolicyRules.Tree.Build
import PolicyRules.Tree.Level
import PolicyRules.Tree.Token
