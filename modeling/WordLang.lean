import WordLang.Span
import WordLang.Text.Bytes
import WordLang.Text.Unprintable
import WordLang.Text.Quoted
import WordLang.Token.Basic
import WordLang.Token.Lexer
import WordLang.Locals
import WordLang.Expr.Basic
import WordLang.Expr.Literal
import WordLang.ParseError
import WordLang.Expr.Reader
import WordLang.Stmt.Basic
import WordLang.Program.Basic
import WordLang.Program.Reader
import WordLang.Program.Outline
import WordLang.Assembly.Instr
import WordLang.Assembly.Target
import WordLang.Assembly.Text
import WordLang.Program.Lowering
import WordLang.Diagnostic
import WordLang.Log
import WordLang.Compile
import WordLang.CommandLine.Options
import WordLang.CommandLine.Disk
import WordLang.CommandLine.Run
import WordLang.Main
import WordLang.Proofs.Machine
import WordLang.Proofs.Evaluation
import WordLang.Proofs.Emission
import WordLang.Proofs.FrameLayout
import WordLang.Proofs.Run
import WordLang.Proofs.ExprCode
import WordLang.Proofs.StmtCode
import WordLang.Proofs.ProgramCode
import WordLang.Proofs.Numeral
import WordLang.Proofs.AssemblyReader
import WordLang.Proofs.Encoding
import WordLang.Proofs.CompilerCorrectness
import WordLang.Proofs.Grammar
import WordLang.Proofs.TreeReader
import WordLang.Proofs.TreeParser
import WordLang.Proofs.ReadingMeaning
import WordLang.Proofs.ParserMeaning
import WordLang.Proofs.ParserCorrectness
import WordLang.Proofs.Lexemes
import WordLang.Proofs.CursorLexer
import WordLang.Proofs.Resolution
import WordLang.Proofs.ParserSafety
import WordLang.Proofs.StackDepth
import WordLang.Proofs.StackShape
import WordLang.Proofs.CodePlaces
import WordLang.Proofs.ShapeSteps
import WordLang.Proofs.FrameSafety
import WordLang.Proofs.CompilerSafety
import WordLang.Proofs.TokenClass
import WordLang.Proofs.MaximalMunch
import WordLang.Proofs.Segmentation
import WordLang.Proofs.Completion
import WordLang.Proofs.ErrorPosition
import WordLang.Proofs.Renaming
import WordLang.Proofs.SourceIndependence
import WordLang.Proofs.Spelling
import WordLang.Proofs.Printer
import WordLang.Proofs.RoundTrip
import WordLang.Proofs.TargetAgreement
import WordLang.Proofs.LabelNumbers
import WordLang.Proofs.BranchOrder
import WordLang.Proofs.LabelDiscipline
import WordLang.Proofs.SourceCuts
import WordLang.Proofs.LexFailures
import WordLang.Proofs.ErrorRegions
import WordLang.Proofs.ReportPosition
import WordLang.Proofs.Phrases
import WordLang.Proofs.PhraseReading
import WordLang.Proofs.PhraseParsing
import WordLang.Proofs.PhraseParts
import WordLang.Proofs.MovedNodes
import WordLang.Proofs.NodeRegions
import WordLang.Proofs.Concatenation
import WordLang.Proofs.NameTables
import WordLang.Proofs.LeafTokens
import WordLang.Proofs.VariableNodes
import WordLang.Proofs.FaultOrder
import WordLang.Proofs.OutlineLines
import WordLang.Proofs.OutlineTrees
import WordLang.Proofs.DiskWrites
import WordLang.Proofs.ReportText
import WordLang.Proofs.DeepOutlines
import WordLang.Proofs.CommandRuns
import WordLang.Proofs.ConstantCode
import WordLang.Proofs.LiteralValues
import WordLang.Proofs.JoinedSources
import WordLang.Proofs.RenderedTokens
import WordLang.Proofs.ReportLines
import WordLang.Proofs.FrameArithmetic
import WordLang.Proofs.ExprStatements
import WordLang.Proofs.DepthCounter
import WordLang.Proofs.StackBalance
import WordLang.Proofs.Descent
import WordLang.Proofs.DescentReading
import WordLang.Proofs.DescentParsing
import WordLang.Proofs.ParserProgress
