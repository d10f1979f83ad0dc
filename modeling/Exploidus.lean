import Exploidus.Exfs.Cache
import Exploidus.Exfs.CommitFaults
import Exploidus.Exfs.Accounting
import Exploidus.Exfs.FailedCreate
import Exploidus.Exfs.HashRun
import Exploidus.Mm.HeapRun
import Exploidus.Proc.Isolation
import Exploidus.Proc.SchedRun
import Exploidus.Cap.Revocation
import Exploidus.Audit.Ring
import Exploidus.Sync.Locks
import Exploidus.Sync.Delivery
import Exploidus.Vfs.Access
import Exploidus.Net.TcpSend
import Exploidus.Net.Handshake
import Exploidus.Net.TcpClose
import Exploidus.Net.Checksum
import Exploidus.Net.Bounds
import Exploidus.Net.Dns
import Exploidus.Net.Udp
import Exploidus.Net.Reassembly
import Exploidus.Ssh.Nonce
import Exploidus.Ssh.ExchangeHash
import Exploidus.Crypto.Aead
import Exploidus.Cnsl.Detection
import Exploidus.Gui.Mouse
import Exploidus.Rahu.DatabaseRun
import Exploidus.Shell.Commands
import Exploidus.Libc.Sort
import Exploidus.Libc.Calendar
