import Perimeterd.CrowdSec.Stream
import Perimeterd.Firewall.Built
import Perimeterd.Firewall.Leases
import Perimeterd.Firewall.Lower
import Perimeterd.Firewall.Observed
import Perimeterd.Firewall.References
import Perimeterd.Firewall.Restore
import Perimeterd.State.Codec
import Perimeterd.State.Unshared
import Perimeterd.Source.Complete
import Perimeterd.App.Isolation
import Perimeterd.App.Answers
import Perimeterd.Lookup.Validate
import Perimeterd.Metrics.Survival
import Perimeterd.Upstream.Retired
import Perimeterd.App.Ownership
