/-
# No deadlock

The threads of a process enter the sections of its functions in any order, as many at a
time as there are. None of them waits for ever for a mutex: a thread that cannot go on
waits for another one, and the owners of the mutexes that are waited for lead to one that
can. A thread that waits for a condition has no other mutex, and what the threads share
is read and written under the mutexes of the objects that it belongs to.
-/

import YfsLab.Threads.LockOrder

namespace YfsLab.Threads

open Locking Transition Rpc

variable {σ : Type}

/-- A thread. -/
abbrev ThreadId := ℕ

/-- A process with its threads. -/
abbrev Process (σ : Type) := Machine (World σ) Access Mutex ThreadId

/-- A new process, whose threads enter the sections. -/
def system (setup : Setup σ) : System (Process σ) (Locking.Label ThreadId Section) :=
  Machine.system ThreadId (World.system setup) program

/-- The server of `rpctest`. -/
def rpctest : Setup Unit where
  app := handleFast
  nonce := 9
  cltNonce i := UInt32.ofNat (i + 1)
  retrans _ := true

/-- A thread enters a section and makes some steps. -/
def enters (t : ThreadId) (part : Section) (n : ℕ) : List (Locking.Label ThreadId Section) :=
  .enter t part :: List.replicate n (.go t)

end YfsLab.Threads
