import Redoubt.Kernel.TableRuns
import Redoubt.Ipc.Fairness
import Redoubt.Ipc.Audit
import Redoubt.Sched.Shares
import Redoubt.Sched.Caps
import Redoubt.Walfs.Histories
import Redoubt.Frames.Runs
import Redoubt.Admission.Fairness
import Redoubt.Admission.Bound
import Redoubt.Quota.Isolation
import Redoubt.Verity.Authentic
import Redoubt.Ninep.Runs
import Redoubt.Client.Runs
import Redoubt.Boot.Placement
import Redoubt.Dma.Runs
import Redoubt.Blkd.Contained
import Redoubt.Steward.Binding
import Redoubt.Stub.Plan
import Redoubt.Otp.Arith
