import WordLang.Main
import WordLang.Files.Tree
import WordLang.Proofs.Emission
import WordLang.Proofs.PlainCode
import WordLang.Proofs.Growth
import WordLang.Proofs.Units
import WordLang.Proofs.Labels
import WordLang.Proofs.Machine
import WordLang.Proofs.Reference
import WordLang.Proofs.References
import WordLang.Proofs.Dependencies
import WordLang.Proofs.Substitution
import WordLang.Proofs.LinkedLabels
import WordLang.Proofs.Matching
import WordLang.Proofs.ExprCode
import WordLang.Proofs.CallCode
import WordLang.Proofs.Evaluation
import WordLang.Proofs.Execution
import WordLang.Proofs.Agreement
import WordLang.Proofs.StmtFrames
import WordLang.Proofs.SimpleCode
import WordLang.Proofs.StmtCode
import WordLang.Proofs.FunctionCode
import WordLang.Proofs.Preservation
import WordLang.Proofs.Names
import WordLang.Proofs.Residue
import WordLang.Proofs.Verdict
import WordLang.Proofs.Acceptance
import WordLang.Proofs.Bookkeeping
import WordLang.Proofs.Derivation
import WordLang.Proofs.ParserTables
import WordLang.Proofs.Tokenization
import WordLang.Proofs.Parsing
import WordLang.Proofs.UnitText
import WordLang.Proofs.SectionLabels
import WordLang.Proofs.BuiltinLinks
import WordLang.Proofs.SeparateUnits
import WordLang.Proofs.ViablePrefixes
import WordLang.Proofs.TokenPlaces
import WordLang.Proofs.StackItems
import WordLang.Proofs.ParserProgress
import WordLang.Proofs.SyntaxErrors
import WordLang.Proofs.NamePlaces
import WordLang.Proofs.ErrorPlaces
import WordLang.Proofs.Unresolved
import WordLang.Proofs.RegisterNeed
import WordLang.Proofs.CallingConvention
import WordLang.Proofs.ControlFlow
import WordLang.Proofs.Moments
import WordLang.Proofs.Balance
import WordLang.Proofs.LocalArea
import WordLang.Proofs.ModuleOrder
import WordLang.Proofs.AddedLibraries
import WordLang.Proofs.SectionTexts
import WordLang.Proofs.Placeholders
import WordLang.Proofs.RegisterOwners
import WordLang.Proofs.LabelClashes
import WordLang.Proofs.WrittenLabels
import WordLang.Proofs.BracketedNames
import WordLang.Proofs.NumeralValues
import WordLang.Proofs.ProperDefinitions
import WordLang.Proofs.DefinedConstants
import WordLang.Proofs.DistinctTexts
import WordLang.Proofs.Coordinates
