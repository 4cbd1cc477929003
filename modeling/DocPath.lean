import DocPath.Main
import DocPath.Proofs.CommandLine.Logging
import DocPath.Proofs.Json.Members
import DocPath.Proofs.Json.Numeral
import DocPath.Proofs.Lookup.Agreement
import DocPath.Proofs.Lookup.ArrayAccess
import DocPath.Proofs.Lookup.Chain
import DocPath.Proofs.Lookup.Composition
import DocPath.Proofs.Lookup.Dependence
import DocPath.Proofs.Lookup.Depth
import DocPath.Proofs.Lookup.Growth
import DocPath.Proofs.Lookup.KeyValue
import DocPath.Proofs.Lookup.Leftmost
import DocPath.Proofs.Lookup.Precedence
import DocPath.Proofs.Lookup.StandardKey
import DocPath.Proofs.Path.Literal
import DocPath.Proofs.Path.Names
import DocPath.Proofs.Session
import DocPath.Json.Reader
import DocPath.Proofs.Number.Scaling
import DocPath.Proofs.Json.Numeral
import DocPath.Proofs.Json.Members
import DocPath.Proofs.Json.Indented
