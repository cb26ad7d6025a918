import Mathlib.Data.List.FinRange

/-!
# The socket table (`cando_port/net_posix/sockets.c`)

Sixteen slots serve both the program's descriptors and the connections that lwIP accepted for a listener and that
wait in its backlog. A call looks its slot up before it takes the netcore lock, so what it does under the lock is a
step of its own; lwIP's callbacks run under the lock as well. A run is a sequence of such steps, in any order the
threads, the network and lwIP produce.

A control block of lwIP is named by its address. The table keeps those whose `arg` is a socket: the callbacks of any
other block return at once.
-/

namespace CanBoot.Cando.SockTable

open Function

/-- An index below `NSOCK`. -/
abbrev Slot := Fin 16

/-- `SOCK_FD_BASE`. -/
def sockFdBase : Int := 1000

/-- `BACKLOG_MAX`. -/
def backlogMax : Nat := 8

/-- The states `ST_FREE` to `ST_ERR`. -/
inductive St where
  | free | new | connecting | connected | listen | closed | err
deriving DecidableEq, Repr

/-- `struct nsock`, without its ring, its addresses and its options; `backlog` is the part below `bl_count`. -/
structure Sock where
  used : Bool
  state : St
  pcb : Option Nat
  backlog : List Slot
deriving DecidableEq, Repr

/-- A slot after `memset`. -/
def Sock.zero : Sock := ⟨false, .free, none, []⟩

/-- What lwIP is doing with a control block. -/
inductive Role where
  | listening | dialling | established
deriving DecidableEq, Repr

/-- A control block with the socket in its `arg`. -/
structure Pcb where
  role : Role
  arg : Slot
deriving DecidableEq, Repr

/-- The calls that look a slot up and then take the lock. -/
inductive Op where
  | connect | listen | accept | close
deriving DecidableEq, Repr

/-- `g_socks`, lwIP's control blocks, the calls between their lookup and their return, and the slots whose descriptors
the program obtained and has not closed. -/
structure Table where
  socks : Slot → Sock
  pcbs : Nat → Option Pcb
  pending : List (Op × Slot)
  held : Slot → Bool

/-- The table at boot. -/
def Table.start : Table := ⟨fun _ => .zero, fun _ => none, [], fun _ => false⟩

namespace Table

variable (t : Table)

def set (i : Slot) (s : Sock) : Table := { t with socks := update t.socks i s }

/-- The slot a descriptor names. -/
def slotOf (fd : Int) : Option Slot :=
  if h : 0 ≤ fd - sockFdBase ∧ fd - sockFdBase < 16 then some ⟨(fd - sockFdBase).toNat, by omega⟩ else none

/-- `sock_of`. -/
def sockOf (fd : Int) : Option Slot := (slotOf fd).filter fun i => (t.socks i).used

/-- The loop that looks for a slot that is not used. -/
def findFree : Option Slot := (List.finRange 16).find? fun i => !(t.socks i).used

/-- `socket`; `stream` says whether the type is `SOCK_STREAM`. -/
def socket (stream : Bool) : Table :=
  if !stream then t
  else
    match t.findFree with
    | none => t
    | some i => { t.set i { Sock.zero with used := true, state := .new } with held := update t.held i true }

/-- A connection gets the slot `i`: it is wired before the program sees it. -/
def wire (p : Nat) (i : Slot) : Table :=
  { t.set i { Sock.zero with used := true, state := .connected, pcb := some p } with
    pcbs := update t.pcbs p (some ⟨.established, i⟩) }

/-- The slot `i` joins the backlog of `ls`. -/
def push (ls i : Slot) : Table := t.set ls { t.socks ls with backlog := (t.socks ls).backlog ++ [i] }

/-- `accept_cb` for a new connection `p` that reached the listening block `lp`; `ok` says whether `e` is `ERR_OK`. A refused
connection is aborted by lwIP. The listener is written after the slot, which may be the listener's own. -/
def acceptCb (lp p : Nat) (ok : Bool) : Table :=
  match t.pcbs lp with
  | some ⟨.listening, ls⟩ =>
    if !ok ∨ (t.pcbs p).isSome ∨ (t.socks ls).backlog.length ≥ backlogMax then t
    else
      match t.findFree with
      | none => t
      | some i => (t.wire p i).push ls i
  | _ => t

/-- `connected_cb`, which only a block that dials can see. -/
def connectedCb (p : Nat) (ok : Bool) : Table :=
  match t.pcbs p with
  | some ⟨.dialling, s⟩ =>
    { t.set s { t.socks s with state := if ok then .connected else .err } with
      pcbs := update t.pcbs p (some ⟨.established, s⟩) }
  | _ => t

/-- `err_cb`: lwIP has freed the block. A listening block has no such callback. -/
def errCb (p : Nat) : Table :=
  match t.pcbs p with
  | none | some ⟨.listening, _⟩ => t
  | some ⟨_, s⟩ =>
    let state := if (t.socks s).state = .connecting then .err else (t.socks s).state
    { t.set s { t.socks s with pcb := none, state := state } with pcbs := update t.pcbs p none }

/-- A block that `tcp_new` or `tcp_listen` returned, if any: one that is not in use. -/
def fresh (tcp : Option Nat) : Option Nat := tcp.filter fun p => (t.pcbs p).isNone

/-- `connect` under the lock. What follows reads the state and pumps. -/
def connect (i : Slot) (tcp : Option Nat) : Table :=
  match t.fresh tcp with
  | none => t
  | some p =>
    { t.set i { t.socks i with pcb := some p, state := .connecting } with
      pcbs := update t.pcbs p (some ⟨.dialling, i⟩) }

/-- `listen` under the lock; `tcp` is the block of `tcp_listen`, if nothing failed on the way to it. -/
def listen (i : Slot) (tcp : Option Nat) : Table :=
  match t.fresh tcp with
  | none => t
  | some p =>
    { t.set i { t.socks i with pcb := some p, state := .listen } with
      pcbs := update t.pcbs p (some ⟨.listening, i⟩) }

/-- A slot given back: its control block is closed or aborted, and with it the descriptor is closed. -/
def released (i : Slot) : Table :=
  { t.set i { t.socks i with used := false, state := .free, pcb := none, backlog := [] } with
    pcbs := (t.socks i).pcb.elim t.pcbs fun p => update t.pcbs p none
    held := update t.held i false }

/-- `sock_release`. `tcp_abort` gets the entries of the backlog as if they were pointers: an entry other than zero is an
address where no control block is, and nothing can be said of what follows. -/
def sockRelease (i : Slot) : Option Table :=
  if (t.socks i).backlog.any (· ≠ 0) then none else some (t.released i)

/-- A call's lookup. A descriptor that is not open is as good as closed. -/
def call (op : Op) (fd : Int) : Table :=
  match t.sockOf fd with
  | none =>
    match op, slotOf fd with
    | .close, some i => { t with held := update t.held i false }
    | _, _ => t
  | some i =>
    if op = .accept ∧ (t.socks i).state ≠ .listen then t else { t with pending := t.pending ++ [(op, i)] }

/-- A call is over. -/
def done (k : Nat) : Table := { t with pending := t.pending.eraseIdx k }

/-- A pending call takes the lock: `accept` for a turn of its loop, the others for their work. -/
def enter (k : Nat) (tcp : Option Nat) (timedOut : Bool) : Option Table :=
  match t.pending[k]? with
  | none => some t
  | some (.connect, i) => some ((t.done k).connect i tcp)
  | some (.listen, i) => some ((t.done k).listen i tcp)
  | some (.close, i) => (t.done k).sockRelease i
  | some (.accept, i) =>
    match (t.socks i).backlog with
    | [] => some (if timedOut then t.done k else t)
    | idx :: rest =>
      some { (t.done k).set i { t.socks i with backlog := rest } with held := update t.held idx true }

end Table

/-- A step of the program, of lwIP or of the network. -/
inductive Event where
  | socket (stream : Bool)
  | call (op : Op) (fd : Int)
  | enter (k : Nat) (tcp : Option Nat) (timedOut : Bool)
  | acceptCb (lp p : Nat) (ok : Bool)
  | connectedCb (p : Nat) (ok : Bool)
  | errCb (p : Nat)

/-- One step; `none` where its behaviour is undefined. -/
def Table.step (t : Table) : Event → Option Table
  | .socket stream => some (t.socket stream)
  | .call op fd => some (t.call op fd)
  | .enter k tcp timedOut => t.enter k tcp timedOut
  | .acceptCb lp p ok => some (t.acceptCb lp p ok)
  | .connectedCb p ok => some (t.connectedCb p ok)
  | .errCb p => some (t.errCb p)

end CanBoot.Cando.SockTable
