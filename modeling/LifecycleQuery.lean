import LifecycleQuery.Text.Blank
import LifecycleQuery.Text.Hex
import LifecycleQuery.Text.Utf8
import LifecycleQuery.Scan
import LifecycleQuery.Name
import LifecycleQuery.Numeral
import LifecycleQuery.Double
import LifecycleQuery.Double.Shortest
import LifecycleQuery.Double.Notation
import LifecycleQuery.Double.Stepwise
import LifecycleQuery.Json
import LifecycleQuery.Json.Scan
import LifecycleQuery.Json.Encode
import LifecycleQuery.Json.Decode
import LifecycleQuery.Fault
import LifecycleQuery.Clause
import LifecycleQuery.Namespaces
import LifecycleQuery.Resolver
import LifecycleQuery.Value
import LifecycleQuery.Value.Literal
import LifecycleQuery.Property
import LifecycleQuery.Property.Clause
import LifecycleQuery.Condition
import LifecycleQuery.Condition.Clause
import LifecycleQuery.Settings
import LifecycleQuery.Query
import LifecycleQuery.Form
import LifecycleQuery.Parameters
import LifecycleQuery.Page
import LifecycleQuery.Service
import LifecycleQuery.Service.Build
import LifecycleQuery.Proofs.Tree
import LifecycleQuery.Proofs.Numeral
import LifecycleQuery.Proofs.Double.Rounding
import LifecycleQuery.Proofs.Grammar
import LifecycleQuery.Proofs.Grammar.Name
import LifecycleQuery.Proofs.Grammar.Numeral
import LifecycleQuery.Proofs.Double.Notation
import LifecycleQuery.Proofs.Grammar.Literal
import LifecycleQuery.Proofs.Value
import LifecycleQuery.Proofs.Grammar.Scope
import LifecycleQuery.Proofs.Grammar.Property
import LifecycleQuery.Proofs.Grammar.Condition
import LifecycleQuery.Proofs.Grammar.Namespaces
import LifecycleQuery.Proofs.Grammar.Frame
import LifecycleQuery.Proofs.Grammar.Ending
import LifecycleQuery.Proofs.Grammar.Cut
import LifecycleQuery.Proofs.Expansion
import LifecycleQuery.Proofs.Resolution
import LifecycleQuery.Proofs.Grammar.Site
import LifecycleQuery.Proofs.Resolution.Related
import LifecycleQuery.Proofs.Acceptance
import LifecycleQuery.Proofs.Grammar.Meaning
import LifecycleQuery.Proofs.Nesting
import LifecycleQuery.Proofs.Query.Step
import LifecycleQuery.Proofs.Query.Invariant
import LifecycleQuery.Proofs.Query.History
import LifecycleQuery.Proofs.Query.Joined
import LifecycleQuery.Proofs.Query.Padded
import LifecycleQuery.Proofs.Mention
import LifecycleQuery.Proofs.Grammar.Table
import LifecycleQuery.Proofs.Namespaces
import LifecycleQuery.Proofs.Locality
import LifecycleQuery.Proofs.Policy
import LifecycleQuery.Proofs.Fault.Viable
import LifecycleQuery.Proofs.Fault.Reach
import LifecycleQuery.Proofs.Fault.Position
import LifecycleQuery.Proofs.Value.Reading
import LifecycleQuery.Proofs.Value.List
import LifecycleQuery.Proofs.Json.Text
import LifecycleQuery.Proofs.Json.Encode
import LifecycleQuery.Proofs.Json.Decode
import LifecycleQuery.Proofs.Query.Shipped
import LifecycleQuery.Proofs.Form
import LifecycleQuery.Proofs.Page.Walk
import LifecycleQuery.Proofs.Parameters
import LifecycleQuery.Proofs.Parameters.Fields
import LifecycleQuery.Proofs.Page.Reading
import LifecycleQuery.Proofs.Service
import LifecycleQuery.Proofs.Service.Limit
import LifecycleQuery.Proofs.Service.Link
import LifecycleQuery.Proofs.Value.Test
import LifecycleQuery.Proofs.Fault.Range
import LifecycleQuery.Proofs.Double.Nearest
import LifecycleQuery.Proofs.Value.Number
import LifecycleQuery.Proofs.Query.Listing
import LifecycleQuery.Proofs.Wildcard
import LifecycleQuery.Proofs.Page.Says
import LifecycleQuery.Proofs.Service.Says
import LifecycleQuery.Proofs.Shown
import LifecycleQuery.Proofs.Query.Shown
import LifecycleQuery.Proofs.Query.Projected
import LifecycleQuery.Proofs.Service.Build
