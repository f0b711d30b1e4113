import Mathlib.Data.List.Basic

/-!
# The submission queue

`aio_read` and `aio_write` of `aio.h`, as the connections use them.  Each puts an entry at the end of the submission
queue of `io_uring` and calls `io_uring_enter` for one entry: the kernel takes the first of the queue, which is the
one that was put there as long as the queue was empty before.  Where `io_uring_enter` fails the caller is told so, but
the entry stays in the queue, and the next call performs it in the place of its own.  One connection has the queue to
itself here.
-/

namespace JACLibc.Aio

/-- An entry: the place in the connection's buffer that is read into or written from, and the number of bytes. -/
inductive Entry
  | read (off size : Nat)
  | write (off size : Nat)
  deriving DecidableEq

def Entry.isRead : Entry → Bool
  | .read _ _ => true
  | .write _ _ => false

/-- What a call answers. -/
inductive Submission
  /-- the arguments are refused, or the queue of the threads is full: there is no entry -/
  | refused
  /-- `__jacl_aio_kick` answers 0 -/
  | accepted
  /-- `__jacl_aio_kick` answers -1, after `__jacl_aio_get_sqe` has published the entry -/
  | stuck
  deriving DecidableEq

/-- `__jacl_aio_get_sqe` and `__jacl_aio_kick(1)`: the entry that the kernel takes, if the call is accepted, and the
queue. -/
def submit (queue : List Entry) (e : Entry) : Submission → Option Entry × List Entry
  | .refused => (none, queue)
  | .accepted => ((queue ++ [e]).head?, (queue ++ [e]).tail)
  | .stuck => (none, queue ++ [e])

variable {e : Entry}

@[simp] theorem submit_refused (queue : List Entry) : submit queue e .refused = (none, queue) := rfl

/-- Where the queue is empty the kernel takes the entry of the call. -/
@[simp] theorem submit_accepted : submit [] e .accepted = (some e, []) := rfl

end JACLibc.Aio
