/-! Error codes of `vex/errno.h` that the modelled functions return. A function that returns a
negative `-E...` in the source returns `.error .E...` here. -/

namespace Vex

inductive Errno
  | EACCES | EAGAIN | EBADF | EBUSY | ECHILD | EEXIST | EFAULT | EFBIG | EINTR | EINVAL | EIO
  | EISDIR | ELOOP | EMLINK | ENAMETOOLONG | ENODATA | ENODEV | ENOENT | ENOEXEC | ENOMEM | ENOSPC
  | ENOSYS | ENOTDIR | ENOTEMPTY | ENXIO | EPERM | ERANGE | ERESTART | EROFS | ESPIPE | ESRCH
  | ETIMEDOUT | EXDEV
  deriving DecidableEq, Repr

/-- A chain of calls succeeds if the first does and the rest succeeds with its result. -/
theorem bind_eq_ok {f : α → Except ε β} : x >>= f = .ok b ↔ ∃ a, x = .ok a ∧ f a = .ok b := by
  cases x with
  | error e => simp [bind, Except.bind]
  | ok a => simp [bind, Except.bind]

theorem ok_bind {f : α → Except ε β} : Except.ok a >>= f = f a := rfl

/-- A guarded call succeeds if the guard lets it through and the rest succeeds. -/
theorem guard_eq_ok [Decidable p] {x : Except ε α} :
    (if p then .error e else x) = .ok a ↔ ¬p ∧ x = .ok a := by
  split
  case isTrue h => simp [h]
  case isFalse h => simp [h]

end Vex
