import Mathlib.Data.List.Basic

/-!
# `Bklib.Model.Sock`: the results of system calls on a socket

A call that fails with `EAGAIN` would block (`sock_wouldblock`); any other failure is an error.
-/

set_option autoImplicit false

namespace Bklib

/-- A result of `sock_recv`. No bytes are the end of the file. -/
inductive RecvResult where
  | bytes (bs : List UInt8)
  | error
  | wouldblock
  deriving DecidableEq

/-- A result of `sock_send`, `write` or `sendfile`: the number of bytes accepted, or a failure. -/
inductive SendResult where
  | accept (n : Nat)
  | error
  | wouldblock
  deriving DecidableEq

end Bklib
