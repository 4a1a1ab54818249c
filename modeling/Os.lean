import Os.Proofs.Jos.RefCount
import Os.Proofs.Jos.FreePages
import Os.Proofs.Jos.Exclusion
import Os.Proofs.Jos.Perms
import Os.Proofs.Jos.Stubs
import Os.Proofs.Jos.Windows
import Os.Proofs.Jos.RoundRobin
import Os.Proofs.Jos.Cputs
import Os.Proofs.Jos.Mmio
import Os.Proofs.Jos.PageInsert
import Os.Proofs.Jos.Kdebug
import Os.Proofs.Jos.Mpconfig
import Os.Proofs.Xv6.LogSpace
import Os.Proofs.Xv6.Pipe
import Os.Proofs.Xv6.Sleep
import Os.Proofs.Xv6.Kill
import Os.Proofs.Xv6.Descriptors
import Os.Proofs.Xv6.Bio
import Os.Proofs.Xv6.Resolve
import Os.Proofs.Xv6.AlarmRuns
import Os.Proofs.Sh.Plumbing
import Os.Proofs.Sh.Files
import Os.Proofs.Xv6.TaskRuns
import Os.Proofs.Xv6.Resize
import Os.Proofs.Xv6.Grep
import Os.Proofs.Xv6.Mp
import Os.Proofs.Xv6.Memmove
import Os.Proofs.Jos.Pfentry
