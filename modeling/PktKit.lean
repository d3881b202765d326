import PktKit.Vtcp.AccEcn
import PktKit.Vtcp.StreamSafety
import PktKit.Vtcp.SackReports
import PktKit.Vtcp.Scoreboard.MinRtt
import PktKit.Vtcp.Scoreboard.Delivered
import PktKit.Vtcp.Scoreboard.Shredding
import PktKit.Vtcp.Scoreboard.Draining
import PktKit.Vtcp.Scoreboard.SackCache
import PktKit.Vtcp.Scoreboard.RackScan
import PktKit.Vtcp.Conn.Undo
import PktKit.Vtcp.Conn.Prr
import PktKit.Wg.RateLimiter
import PktKit.Wg.Attempts
import PktKit.Wg.Remembered
import PktKit.L3Hub
import PktKit.Checksum
import PktKit.TransportChecksum
import PktKit.L2.Isolation
import PktKit.L2.Security
import PktKit.Ovpn.Window
import PktKit.Ovpn.Delivery
import PktKit.Arp.Resolution
import PktKit.Arp.Reachability
import PktKit.Dhcp.Tenure
import PktKit.Dhcp.Wire
import PktKit.Dhcp.Exclusive
import PktKit.Dns.Answers
import PktKit.Nat44.Ports
import PktKit.Nat44.Resize
import PktKit.Nat44.Expiry
import PktKit.Nat44.SipFraming
import PktKit.Nat44.Reassembly
import PktKit.Xdp.Coverage
import PktKit.Afxdp.PollLoop
