import SingleTable.Item.Delete
import SingleTable.Item.Get
import SingleTable.Item.Put
import SingleTable.Item.Update
import SingleTable.Query.Find
import SingleTable.Query.Params
import SingleTable.Schema.Reader
import SingleTable.Proofs.Condition.Tests
import SingleTable.Proofs.Expression.Grammar
import SingleTable.Proofs.Expression.Spelling
import SingleTable.Proofs.Expression.Reading
import SingleTable.Proofs.Expression.Precedence
import SingleTable.Proofs.Binding.Fresh
import SingleTable.Proofs.Binding.Search
import SingleTable.Proofs.Expression.Outcome
import SingleTable.Proofs.Binding.Extends
import SingleTable.Proofs.Condition.Compile
import SingleTable.Proofs.Binding.Alike
import SingleTable.Proofs.Condition.Form
import SingleTable.Proofs.Condition.Precedence
import SingleTable.Proofs.Query.Steps
import SingleTable.Proofs.Query.Params
import SingleTable.Proofs.Entity.Accepted
import SingleTable.Proofs.Index.Key
import SingleTable.Proofs.Item.Put
import SingleTable.Proofs.Query.Match
import SingleTable.Proofs.Item.Resolve
import SingleTable.Proofs.Number.Shortest
import SingleTable.Proofs.Number.Literal
import SingleTable.Proofs.Number.Rounding
import SingleTable.Proofs.Number.Reread
import SingleTable.Proofs.Index.Legible
import SingleTable.Proofs.Index.Reread
import SingleTable.Proofs.Item.Identity
import SingleTable.Proofs.Item.Locate
import SingleTable.Proofs.Item.Writes
import SingleTable.Proofs.Item.Update
import SingleTable.Proofs.Query.Holds
import SingleTable.Proofs.Query.Scope
import SingleTable.Proofs.Query.Found
import SingleTable.Proofs.Expression.Inventory
import SingleTable.Proofs.Query.Protocol
import SingleTable.Proofs.Query.Used
import SingleTable.Proofs.Query.Absent
import SingleTable.Proofs.Schema.WellFormed
import SingleTable.Proofs.Item.Request
import SingleTable.Proofs.Item.Address
import SingleTable.Proofs.Item.Written
import SingleTable.Proofs.Item.Reread
import SingleTable.Proofs.Query.Alike
import SingleTable.Proofs.Item.Alike
import SingleTable.Proofs.Index.Choice
import SingleTable.Proofs.Item.Allowed
import SingleTable.Proofs.Item.Complete
import SingleTable.Proofs.Item.Absent
import SingleTable.Proofs.Query.Parted
import SingleTable.Proofs.Binding.Ledger
import SingleTable.Proofs.Condition.Accumulation
import SingleTable.Proofs.Condition.Conjunction
import SingleTable.Proofs.Query.Narrowing
import SingleTable.Proofs.Query.UpperBound
