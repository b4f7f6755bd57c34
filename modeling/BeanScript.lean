import BeanScript.Proofs.Replay.Receiver
import BeanScript.Proofs.Replay.Interchange
import BeanScript.Proofs.Replay.Rejected
import BeanScript.Proofs.Script.Introspection
import BeanScript.Proofs.Script.Occurrences
import BeanScript.Proofs.Script.Reflection
import BeanScript.Proofs.Script.Requests
import BeanScript.Proofs.Source.Outputs
import BeanScript.Proofs.Replay.Endings
import BeanScript.Proofs.Replay.Sessions
import BeanScript.Proofs.Replay.Environments
import BeanScript.Proofs.Replay.Isolation
import BeanScript.Proofs.Bean.Reordering
import BeanScript.Proofs.Bean.Histories
import BeanScript.Proofs.Script.Offences
import BeanScript.Proofs.Replay.Regeneration
import BeanScript.Proofs.Replay.Economy
import BeanScript.Proofs.Source.FirstCome
import BeanScript.Proofs.Replay.Atomicity
import BeanScript.Proofs.Types.Walks
import BeanScript.Proofs.Types.Collectors
import BeanScript.Proofs.Bean.Collections
import BeanScript.Proofs.Segments
