import LiveTemplate.Forest.Lemmas
import LiveTemplate.Main
import LiveTemplate.Session.Assign
import LiveTemplate.Slice
import LiveTemplate.Proofs.Forest.Apart
import LiveTemplate.Proofs.Range.Passes
import LiveTemplate.Proofs.Range.Reconciled
import LiveTemplate.Proofs.Range.Exactness
import LiveTemplate.Proofs.Range.Repeated
import LiveTemplate.Proofs.Range.Refused
import LiveTemplate.Proofs.Range.Frame
import LiveTemplate.Proofs.Range.Cost
import LiveTemplate.Proofs.Forest.Growth
import LiveTemplate.Proofs.Instance.Counted
import LiveTemplate.Proofs.Session.Numbered
import LiveTemplate.Proofs.Session.Recency
import LiveTemplate.Proofs.Instance.Binding
import LiveTemplate.Proofs.Instance.Realized
import LiveTemplate.Proofs.Instance.Copied
import LiveTemplate.Proofs.Nesting.Acts
import LiveTemplate.Proofs.Nesting.Ledger
import LiveTemplate.Proofs.Nesting.Sparing
import LiveTemplate.Proofs.Substitution.Holding
import LiveTemplate.Proofs.Substitution.Numbering
import LiveTemplate.Proofs.Substitution.Reading
import LiveTemplate.Proofs.Scan.Cuts
import LiveTemplate.Proofs.Scan.Defects
import LiveTemplate.Proofs.Text.References
import LiveTemplate.Proofs.Plain.Kept
import LiveTemplate.Proofs.Isolation.Runs
import LiveTemplate.Proofs.Isolation.Sessions
import LiveTemplate.Proofs.Isolation.Templates
import LiveTemplate.Proofs.RootSpan.Runs
import LiveTemplate.Proofs.Scan.ReadBack
import LiveTemplate.Proofs.Scan.Values
import LiveTemplate.Proofs.Scan.ValuesKept
import LiveTemplate.Proofs.Scan.Unquoted
import LiveTemplate.Proofs.Range.Losses
import LiveTemplate.Proofs.Range.Emptied
import LiveTemplate.Proofs.Range.Reach
import LiveTemplate.Proofs.Scan.Strided
