import Elvis.Main
import Elvis.Proofs.Args.Answers
import Elvis.Proofs.Args.Canonical
import Elvis.Proofs.Args.Concatenation
import Elvis.Proofs.Args.Groups
import Elvis.Proofs.Args.Spellings
import Elvis.Proofs.Args.UnknownFlags
import Elvis.Proofs.Blame
import Elvis.Proofs.Bytes.Sort
import Elvis.Proofs.Command.Ambient
import Elvis.Proofs.Command.History
import Elvis.Proofs.Command.Words
import Elvis.Proofs.Compile
import Elvis.Proofs.Completion
import Elvis.Proofs.EditDistance.Metric
import Elvis.Proofs.Help
import Elvis.Proofs.Help.Alignment
import Elvis.Proofs.Hints
import Elvis.Proofs.Integer.Numerals
import Elvis.Proofs.Literals
import Elvis.Proofs.OptionSet.Buckets
import Elvis.Proofs.OptionSet.CrossLinks
import Elvis.Proofs.OptionSet.Schemes
import Elvis.Proofs.Script.Collapse
import Elvis.Proofs.Script.Dispatch
import Elvis.Proofs.Script.FlagActions
import Elvis.Proofs.Script.ListContexts
import Elvis.Proofs.Script.OptionHook
import Elvis.Proofs.Script.SuppliedValues
import Elvis.Proofs.Script.UrlParameters
import Elvis.Proofs.Script.Usage
import Elvis.Proofs.Script.VariableNames
import Elvis.Proofs.Shell.DoubleQuotes
import Elvis.Proofs.Shell.HereDocuments
import Elvis.Proofs.Shell.Words
import Elvis.Proofs.Url.PercentEncoding
import Elvis.SearchTerm
