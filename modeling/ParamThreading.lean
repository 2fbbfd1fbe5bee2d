import ParamThreading.Main
import ParamThreading.Program.Imports
import ParamThreading.Proofs.CallerClosure
import ParamThreading.Proofs.TokenOrder
import ParamThreading.Proofs.Layout
import ParamThreading.Proofs.Shape
import ParamThreading.Proofs.GoForms
import ParamThreading.Proofs.SourceTree
import ParamThreading.Proofs.Resolution
import ParamThreading.Proofs.LoadedProgram
import ParamThreading.Proofs.FunctionTable
import ParamThreading.Proofs.CallSites
import ParamThreading.Proofs.Reachability
import ParamThreading.Proofs.CallAnswers
import ParamThreading.Proofs.PlanExact
import ParamThreading.Proofs.ArgumentPlacement
import ParamThreading.Proofs.AlreadyThreaded
import ParamThreading.Proofs.GoNames
import ParamThreading.Proofs.GraphEdges
import ParamThreading.Proofs.ResolvedCalls
import ParamThreading.Proofs.IncomingCalls
import ParamThreading.Proofs.GoLists
import ParamThreading.Proofs.EditPlaces
import ParamThreading.Proofs.Targets
import ParamThreading.Proofs.InStep
import ParamThreading.Proofs.Locality
import ParamThreading.Proofs.Lexemes
import ParamThreading.Proofs.Scanning
import ParamThreading.Proofs.ListTokens
import ParamThreading.Proofs.ElementTokens
import ParamThreading.Proofs.Weaving
import ParamThreading.Proofs.RenderedTokens
import ParamThreading.Proofs.Independence
import ParamThreading.Proofs.Tolerance
import ParamThreading.Proofs.DiskPlaces
import ParamThreading.Proofs.Replacing
import ParamThreading.Proofs.RenderedTexts
import ParamThreading.Proofs.PathSegments
import ParamThreading.Proofs.LoadedFiles
import ParamThreading.Proofs.RunChanges
import ParamThreading.Proofs.PathOrder
import ParamThreading.Proofs.Assembly
import ParamThreading.Proofs.WalkEnds
import ParamThreading.Proofs.Drafts
import ParamThreading.Proofs.EnclosingNodes
import ParamThreading.Proofs.TargetKeys
import ParamThreading.Proofs.Occurrences
import ParamThreading.Proofs.PackageNames
import ParamThreading.Proofs.LocalNames
import ParamThreading.Proofs.ForeignValues
import ParamThreading.Proofs.PackageVariables
import ParamThreading.Proofs.CalledNames
import ParamThreading.Proofs.ImportPaths
import ParamThreading.Proofs.FirstParameters
import ParamThreading.Proofs.NextTokens
import ParamThreading.Proofs.EditedLists
import ParamThreading.Proofs.WrittenPositions
import ParamThreading.Proofs.EntryPoints
import ParamThreading.Proofs.ShownPaths
import ParamThreading.Proofs.WalkedFiles
import ParamThreading.Proofs.ImportClosure
import ParamThreading.Proofs.BestKnowledge
import ParamThreading.Proofs.LinePositions
import ParamThreading.Proofs.ReportedPlaces
import ParamThreading.Proofs.FunctionIndex
