import Hop.Node.Budget
import Hop.Agent.Home
import Hop.Agent.GhostLease
import Hop.Agentd.Rollout
import Hop.Lead.Fencing
import Hop.Lead.Snapshot
import Hop.Lease.Exclusion
import Hop.HopOS.Blob
import Hop.HopOS.Overtake
import Hop.Lock.Torn
import Hop.Runner.Cages
import Hop.Runner.Forgets
import Hop.Dns.Gaps
import Hop.Dns.Incremental
import Hop.Api.Upsert
import Hop.Lead.Marks
import Hop.Lead.Policies
import Hop.Lead.Trim
import Hop.Node.Handoff
import Hop.Types.Duration
import Hop.Lock.Key
import Hop.Runner.Env
import Hop.Auth.Sha256
import Hop.Runner.Framing
import Hop.Dns.Pending
import Hop.Hoplib.Readers
import Hop.Hoplb.Request
import Hop.Runner.Intact
import Hop.Cli.Refused
import Hop.Lead.Fair
import Hop.HopOS.Sntp
import Hop.Cloudflared.Blowup
import Hop.Cloudflared.RoundTrip
import Hop.Dns.Table
import Hop.Runner.LogRing
import Hop.Node.Events
import Hop.Node.Generator
import Hop.Dns.ReadName
import Hop.Hopprom.Once
import Hop.Hopprom.Exposed
