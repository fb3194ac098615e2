import VariadicMacros.CommandLine.Run
import VariadicMacros.Main
import VariadicMacros.Proofs.Deferral
import VariadicMacros.Proofs.DefinedNames
import VariadicMacros.Proofs.ForEach
import VariadicMacros.Proofs.PastedChains
import VariadicMacros.Proofs.Termination
import VariadicMacros.Proofs.LexicalGrammar
import VariadicMacros.Proofs.JoinedTexts
import VariadicMacros.Proofs.TokenInvariants
import VariadicMacros.Proofs.PrintedTokens
import VariadicMacros.Proofs.PrintedExpansions
import VariadicMacros.Proofs.ArgumentBounds
import VariadicMacros.Proofs.MaskedHeaders
import VariadicMacros.Proofs.ChangedFiles
import VariadicMacros.Proofs.UpToDate
import VariadicMacros.Proofs.CollapsedGaps
import VariadicMacros.Proofs.GenuineTokens
import VariadicMacros.Proofs.StringizedArguments
import VariadicMacros.Proofs.WrittenCalls
import VariadicMacros.Proofs.StringizedTails
import VariadicMacros.Proofs.ObjectLikeMacros
import VariadicMacros.Proofs.DefinitionGrammar
import VariadicMacros.Proofs.JoinedSources
import VariadicMacros.Proofs.CommandLineForms
import VariadicMacros.Proofs.ExpansionErrors
import VariadicMacros.Proofs.NestedCalls
import VariadicMacros.Proofs.CallGraph
import VariadicMacros.Proofs.Redefinitions
import VariadicMacros.Proofs.CommentFreeTexts
