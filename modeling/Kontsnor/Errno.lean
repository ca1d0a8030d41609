/-
The errors of the system calls (`syscall/mod.rs`), as far as a call of this development returns them.
-/
import Mathlib.Data.Int.Notation

namespace Kontsnor

inductive Errno
  | EPERM | ENOENT | ESRCH | EIO | EBADF | EAGAIN | ENOMEM | EACCES | EFAULT | EEXIST | EXDEV | ENOTDIR | EISDIR | EINVAL
  | EMFILE | EFBIG | ENOSPC | ENOSYS | ENOTEMPTY | ENOEXEC | ELOOP | ETIMEDOUT
  /-- the bare number -32 in `fs/pipe.rs` -/
  | EPIPE
  deriving DecidableEq, Repr

def Errno.toInt : Errno → ℤ
  | EPERM => -1
  | ENOENT => -2
  | ESRCH => -3
  | EIO => -5
  | ENOEXEC => -8
  | EBADF => -9
  | EAGAIN => -11
  | ENOMEM => -12
  | EACCES => -13
  | EFAULT => -14
  | EEXIST => -17
  | EXDEV => -18
  | ENOTDIR => -20
  | EISDIR => -21
  | EINVAL => -22
  | EMFILE => -24
  | EFBIG => -27
  | ENOSPC => -28
  | EPIPE => -32
  | ENOSYS => -38
  | ENOTEMPTY => -39
  | ELOOP => -40
  | ETIMEDOUT => -110

end Kontsnor
