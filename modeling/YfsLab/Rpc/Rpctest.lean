/-
# The service of rpctest

The four procedures of `srv`, which `startserver` registers, and what the clients of
`rpctest` check of their results. `client1` makes its calls from many threads at once, and
`handle_slow` sleeps, so replies come back in another order than the calls were made.
-/

import YfsLab.Rpc.Transparency

namespace YfsLab.Rpc.Srv

open BigEndian Transition Wire

/-! ## The procedures -/

/-- `srv::handle_22`. -/
def handle22 (args : Vals .lp64 [.string, .string]) : Int32 × Ty.string.Val .lp64 :=
  (0, (show Bytes from args.1) ++ (show Bytes from args.2.1))

/-- `srv::handle_fast`. The sum wraps around. -/
def handleFast (args : Vals .lp64 [.int]) : Int32 × Ty.int.Val .lp64 :=
  (0, (show Int32 from args.1) + 1)

/-- `srv::handle_slow`, when it has slept. -/
def handleSlow (args : Vals .lp64 [.int]) : Int32 × Ty.int.Val .lp64 :=
  (0, (show Int32 from args.1) + 2)

/-- `srv::handle_bigrep`. -/
def handleBigrep (args : Vals .lp64 [.int]) : Int32 × Ty.string.Val .lp64 :=
  (0, List.replicate (show Int32 from args.1).toInt.toNat (120 : UInt8))

/-- The constructor of `std::string` throws: a negative length is a huge `size_t`. -/
def throws (request : Request) : Bool :=
  (request.arguments [.int]).any fun args => args.any fun vs => decide ((vs.1 : Int32) < 0)

/-- The calls of `handle_slow` that sleep, with their arguments. -/
abbrev Asleep := DispatchId → Option (Vals .lp64 [.int])

/-- A handler that does not sleep. -/
def atOnce (asleep : Asleep) (outcome : Option Outcome) : Option (Asleep × Option Outcome) :=
  outcome.map fun outcome => (asleep, some outcome)

/-- `h1::fn` for `handle_slow`, up to the `usleep`. -/
def fallAsleep (asleep : Asleep) (d : DispatchId) (request : Request) :
    Option (Asleep × Option Outcome) :=
  (request.arguments [.int]).map fun args =>
    match args with
    | none => (asleep, some { ret := RpcConst.unmarshalArgsFailure })
    | some vs => (Function.update asleep d (some vs), none)

/-- The service that `startserver` registers. -/
def service : Service Asleep where
  init _ := none
  registered proc := proc == 22 || proc == 23 || proc == 24 || proc == 25
  enter asleep d request _ :=
    if request.proc = 22 then atOnce asleep (h1 [.string, .string] .string handle22 request)
    else if request.proc = 23 then atOnce asleep (h1 [.int] .int handleFast request)
    else if request.proc = 24 then fallAsleep asleep d request
    else if request.proc = 25 then
      if throws request then none
      else atOnce asleep (h1 [.int] .string handleBigrep request)
    else none
  resume asleep d _ := (asleep d).map fun vs =>
    (Function.update asleep d none,
      some { ret := (handleSlow vs).1, result := Ty.int.encode .lp64 (handleSlow vs).2 })
  stir _ _ := none

/-! ## What they return -/

/-- Retransmitting clients of `startserver`. -/
def setup : Setup Asleep where
  nonce i := UInt32.ofNat (i + 1)
  retrans _ := true
  srvNonce := 9
  app := service

end YfsLab.Rpc.Srv
