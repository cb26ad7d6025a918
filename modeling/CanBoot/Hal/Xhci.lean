import CanBoot.Hal.XhciRing

/-!
# USB enumeration (`enumerate` and what it calls in `hal/usb/xhci.c`)

What the controller and the device answer during one attempt is a record (`Answers`); a completion code 0 is a timeout.
The rings of a device slot keep their memory from attempt to attempt, so the state logs each initialisation of a ring
together with the memory it starts from.
-/

namespace CanBoot.Xhci

open Function

def ccSuccess : Nat := 1
def descbufSize : Nat := 512
def ctxEntryMax : Nat := 64

/-- `sizeof(g_input_ctx)`. -/
def inputCtxSize : Nat := 33 * ctxEntryMax

inductive Kind where
  | none
  | keyboard
  | mouse
  | msc
deriving DecidableEq, Repr

/-- The four rings of a device slot. -/
inductive RingName where
  | ep0
  | int
  | bin
  | bout
deriving DecidableEq, Repr

/-- `struct usb_dev`, without the HID report state. -/
structure Dev where
  used : Bool
  kind : Kind
  slot : Nat
  port : Nat
  speed : Nat
  intEpaddr : UInt8
  intDci : Nat
  intMps : Nat
  int : Producer
  ep0 : Producer
  bulkInDci : Nat
  bulkOutDci : Nat
  bulkInMps : Nat
  bulkOutMps : Nat
  bin : Producer
  bout : Producer
deriving DecidableEq, Repr

/-- `memset(d, 0, sizeof(*d))`. -/
def Dev.zero : Dev :=
  ⟨false, .none, 0, 0, 0, 0, 0, 0, ⟨0, false⟩, ⟨0, false⟩, 0, 0, 0, 0, ⟨0, false⟩, ⟨0, false⟩⟩

/-- Where things are, and what the controller reports of itself. -/
structure Env where
  ring : Nat → RingName → BitVec 64
  descbuf : BitVec 64
  /-- The bytes behind `g_descbuf`, from its end on. -/
  behind : Nat → UInt8
  /-- `g_ctx_bytes` is 64 (CSZ). -/
  large : Bool

def Env.ctxBytes (env : Env) : Nat := if env.large then 64 else 32

/-- A ring (re)initialised for a device, with its memory after `ring_link`. -/
structure Start where
  device : Nat
  name : RingName
  memory : Trbs

/-- An endpoint context that `set_ep_ctx` wrote. -/
structure EpCtx where
  dci : Nat
  epType : Nat
  mps : Nat
  ring : RingName
deriving DecidableEq, Repr

/-- The offsets in `g_input_ctx` of the five words of an endpoint context. -/
def EpCtx.offsets (env : Env) (e : EpCtx) : List Nat :=
  (List.range 5).map fun word => (e.dci + 1) * env.ctxBytes + 4 * word

/-- The device slots and their rings, and what has been done: the rings initialised, the offsets of `g_descbuf` the walks
read, and the endpoint contexts written. -/
structure State where
  devs : Nat → Dev
  rings : Nat → RingName → Trbs
  starts : List Start
  reads : List Nat
  contexts : List EpCtx

/-- Zeroed BSS. -/
def State.boot : State := ⟨fun _ => .zero, fun _ _ _ => .zero, [], [], []⟩

/-- The answers of the hardware in one attempt: completion codes, the slot, and the bytes of the descriptor reads. -/
structure Answers where
  speed : Nat
  enable : Nat
  slot : Nat
  address : Nat
  head : Nat
  headBytes : List UInt8
  config : Nat
  configBytes : List UInt8
  setConfig : Nat
  setProtocol : Nat
  configure : Nat
deriving DecidableEq, Repr

def State.setDev (s : State) (di : Nat) (d : Dev) : State := { s with devs := update s.devs di d }

def State.setRing (s : State) (di : Nat) (name : RingName) (ring : Trbs) : State :=
  { s with rings := update s.rings di (update (s.rings di) name ring) }

def State.linked (env : Env) (di : Nat) (name : RingName) (s : State) : Trbs :=
  ringLink (env.ring di name) (s.rings di name) true

/-- `ring_link(ring, 1)`, when a ring is prepared for a device. -/
def State.linkRing (env : Env) (di : Nat) (name : RingName) (s : State) : State :=
  { s.setRing di name (s.linked env di name) with starts := s.starts ++ [⟨di, name, s.linked env di name⟩] }

/-- `push_trb` on a device's EP0 ring. -/
def State.pushEp0 (di : Nat) (r : Request) (s : State) : State :=
  (s.setRing di .ep0 (pushTrb (s.rings di .ep0) (s.devs di).ep0 r).1).setDev di
    { s.devs di with ep0 := (pushTrb (s.rings di .ep0) (s.devs di).ep0 r).2 }

/-! ## Control transfers -/

/-- The eight bytes of a setup packet. -/
structure Setup where
  requestType : BitVec 8
  request : BitVec 8
  value : BitVec 16
  index : BitVec 16
  length : BitVec 16

def Setup.word (q : Setup) : BitVec 64 :=
  q.length ++ q.index ++ q.value ++ q.request ++ q.requestType

def Setup.inward (q : Setup) : Bool := q.requestType &&& 0x80 ≠ 0

def dataPhase (di : Nat) (q : Setup) (data : BitVec 64) (s : State) : State :=
  if q.length ≠ 0 then s.pushEp0 di (dataStage data (q.length.setWidth 32) q.inward) else s

/-- `control_xfer`, up to the doorbell; the code it returns is in the answers. -/
def controlXfer (di : Nat) (q : Setup) (data : BitVec 64) (s : State) : State :=
  (dataPhase di q data (s.pushEp0 di (setupStage q.word q.length.toNat q.inward))).pushEp0 di
    (statusStage q.length.toNat q.inward)

/-! ## Addressing and the descriptor -/

/-- `address_and_get_config` up to Address Device: the device has its slot, and its EP0 ring is prepared. -/
def prepareEp0 (env : Env) (di : Nat) (a : Answers) (s : State) : State :=
  (s.setDev di { s.devs di with speed := a.speed, slot := a.slot, ep0 := ⟨0, true⟩ }).linkRing env di .ep0

/-- `g_descbuf` after the first read, which asks for nine bytes; `memset` zeroed it before. -/
def headBuf (a : Answers) (i : Nat) : UInt8 := (a.headBytes.take 9).getD i 0

/-- `total`: `wTotalLength`, at most the size of the buffer. -/
def Answers.total (a : Answers) : Nat := min ((headBuf a 2).toNat + 256 * (headBuf a 3).toNat) descbufSize

/-- `g_descbuf` after the second read, which asks for `total` bytes, and the memory behind it. -/
def descbuf (env : Env) (a : Answers) (i : Nat) : UInt8 :=
  if descbufSize ≤ i then env.behind (i - descbufSize) else ((a.configBytes.take a.total)[i]?).getD (headBuf a i)

def getConfig (length : BitVec 16) : Setup := ⟨0x80, 0x06, 0x0200, 0, length⟩

/-! ## The walk over the descriptors -/

/-- The variables of the walk in `enumerate`, and the offsets of `g_descbuf` it has read. -/
structure Walk where
  i : Nat
  ifaceNo : UInt8
  curClass : UInt8
  curProto : UInt8
  intEpaddr : UInt8
  intMps : Nat
  hidIface : UInt8
  hidProto : UInt8
  hidFound : Bool
  mscInEp : UInt8
  mscOutEp : UInt8
  mscInMps : Nat
  mscOutMps : Nat
  mscIn : Bool
  mscOut : Bool
  reads : List Nat
deriving DecidableEq, Repr

def Walk.start (d : Dev) : Walk := ⟨0, 0, 0, 0, d.intEpaddr, d.intMps, 0, 0, false, 0, 0, 512, 512, false, false, []⟩

def Walk.interface (buf : Nat → UInt8) (w : Walk) : Walk :=
  { w with
    ifaceNo := buf (w.i + 2)
    curClass := buf (w.i + 5)
    curProto := buf (w.i + 7)
    reads := w.reads ++ [w.i + 2, w.i + 5, w.i + 7] }

/-- What an endpoint with this address, attributes and packet size changes. -/
def Walk.found (w : Walk) (addr attr : UInt8) (mps : Nat) : Walk :=
  if w.curClass = 0x03 ∧ addr &&& 0x80 ≠ 0 ∧ attr &&& 0x3 = 0x3 ∧ ¬ w.hidFound then
    { w with
      intEpaddr := addr
      intMps := if mps = 0 ∨ mps > 8 then 8 else mps
      hidIface := w.ifaceNo
      hidProto := w.curProto
      hidFound := true }
  else if w.curClass = 0x08 ∧ attr &&& 0x3 = 0x2 then
    if addr &&& 0x80 ≠ 0 then { w with mscInEp := addr, mscInMps := if mps ≠ 0 then mps else 512, mscIn := true }
    else { w with mscOutEp := addr, mscOutMps := if mps ≠ 0 then mps else 512, mscOut := true }
  else w

def Walk.endpoint (buf : Nat → UInt8) (w : Walk) : Walk :=
  { w with reads := w.reads ++ [w.i + 2, w.i + 3, w.i + 4, w.i + 5] }.found (buf (w.i + 2)) (buf (w.i + 3))
    ((buf (w.i + 4)).toNat + 256 * (buf (w.i + 5)).toNat)

def Walk.descriptor (buf : Nat → UInt8) (w : Walk) : Walk :=
  if buf (w.i + 1) = 0x04 then w.interface buf else if buf (w.i + 1) = 0x05 then w.endpoint buf else w

/-- `len` and `typ`. -/
def Walk.header (w : Walk) : Walk := { w with reads := w.reads ++ [w.i, w.i + 1] }

/-- The loop, out of fuel or at its end. -/
def Walk.run (buf : Nat → UInt8) (total : Nat) : Nat → Walk → Option Walk
  | 0, _ => none
  | fuel + 1, w =>
    if w.i + 1 < total then
      if buf w.i = 0 then some w.header
      else Walk.run buf total fuel { w.header.descriptor buf with i := w.i + (buf w.i).toNat }
    else some w

/-! ## Configuring -/

/-- `set_ep_ctx`. -/
def State.setEpCtx (e : EpCtx) (s : State) : State := { s with contexts := s.contexts ++ [e] }

def setConfiguration (value : UInt8) : Setup := ⟨0x00, 0x09, value.toBitVec.setWidth 16, 0, 0⟩

def setProtocol (iface : UInt8) : Setup := ⟨0x21, 0x0B, 0, iface.toBitVec.setWidth 16, 0⟩

/-- Configure Endpoint, the last command of both. -/
def configureEndpoint (di : Nat) (a : Answers) (kind : Kind) (s : State) : Bool × State :=
  if a.configure ≠ ccSuccess then (false, s) else (true, s.setDev di { s.devs di with kind := kind })

def Walk.intDci (w : Walk) : Nat := (w.intEpaddr &&& 0x0F).toNat * 2 + 1
def Walk.bulkInDci (w : Walk) : Nat := (w.mscInEp &&& 0x0F).toNat * 2 + 1
def Walk.bulkOutDci (w : Walk) : Nat := (w.mscOutEp &&& 0x0F).toNat * 2

def prepareInt (env : Env) (di : Nat) (w : Walk) (s : State) : State :=
  ((s.setDev di { s.devs di with intDci := w.intDci, int := ⟨0, true⟩ }).linkRing env di .int).setEpCtx
    ⟨w.intDci, 7, w.intMps, .int⟩

/-- `configure_hid`. -/
def configureHid (env : Env) (di : Nat) (a : Answers) (cfgValue : UInt8) (w : Walk) (s : State) : Bool × State :=
  if a.setConfig ≠ ccSuccess then (false, controlXfer di (setConfiguration cfgValue) 0 s)
  else
    configureEndpoint di a (if w.hidProto = 2 then .mouse else .keyboard)
      (prepareInt env di w
        (controlXfer di (setProtocol w.hidIface) 0 (controlXfer di (setConfiguration cfgValue) 0 s)))

def setBulk (w : Walk) (d : Dev) : Dev :=
  { d with
    bulkInDci := w.bulkInDci
    bulkOutDci := w.bulkOutDci
    bulkInMps := w.mscInMps
    bulkOutMps := w.mscOutMps
    bin := ⟨0, true⟩
    bout := ⟨0, true⟩ }

def prepareBulk (env : Env) (di : Nat) (w : Walk) (s : State) : State :=
  ((((s.setDev di (setBulk w (s.devs di))).linkRing env di .bin).linkRing env di .bout).setEpCtx
    ⟨w.bulkInDci, 6, w.mscInMps, .bin⟩).setEpCtx ⟨w.bulkOutDci, 2, w.mscOutMps, .bout⟩

/-- `configure_msc`. -/
def configureMsc (env : Env) (di : Nat) (a : Answers) (cfgValue : UInt8) (w : Walk) (s : State) : Bool × State :=
  if a.setConfig ≠ ccSuccess then (false, controlXfer di (setConfiguration cfgValue) 0 s)
  else configureEndpoint di a .msc (prepareBulk env di w (controlXfer di (setConfiguration cfgValue) 0 s))

/-! ## Enumerating -/

/-- What `enumerate` does with the endpoints the walk found. -/
def configure (env : Env) (di : Nat) (a : Answers) (cfgValue : UInt8) (w : Walk) (s : State) : Bool × State :=
  if w.mscIn ∧ w.mscOut then configureMsc env di a cfgValue w s
  else if w.hidFound then configureHid env di a cfgValue w s
  else (false, s)

/-- The walk over what a device answered; it does not run out of the fuel given here (`walkFor_ends`). -/
def walkFor (env : Env) (a : Answers) (d : Dev) : Option Walk :=
  Walk.run (descbuf env a) a.total (a.total + 1) (.start d)

/-- What the walk wrote into the device. -/
def State.keepWalk (di : Nat) (w : Walk) (s : State) : State :=
  { s.setDev di { s.devs di with intEpaddr := w.intEpaddr, intMps := w.intMps } with reads := s.reads ++ w.reads }

/-- The walk of `enumerate` and what follows. -/
def walkAndConfigure (env : Env) (di : Nat) (a : Answers) (s : State) : Bool × State :=
  match walkFor env a (s.devs di) with
  | none => (false, s)
  | some w => configure env di a (descbuf env a 5) w (s.keepWalk di w)

/-- `address_and_get_config` behind Address Device, and the rest of `enumerate`. -/
def readConfig (env : Env) (di : Nat) (a : Answers) (s : State) : Bool × State :=
  if a.head ≠ ccSuccess then (false, controlXfer di (getConfig 9) env.descbuf s)
  else if a.config ≠ ccSuccess ∨ a.total = 0 then
    (false, controlXfer di (getConfig a.total) env.descbuf (controlXfer di (getConfig 9) env.descbuf s))
  else
    walkAndConfigure env di a
      (controlXfer di (getConfig a.total) env.descbuf (controlXfer di (getConfig 9) env.descbuf s))

def markUsed (di port : Nat) (r : Bool × State) : Bool × State :=
  if r.1 then (true, r.2.setDev di { r.2.devs di with port := port, used := true }) else r

/-- `enumerate`. -/
def enumerate (env : Env) (di port : Nat) (a : Answers) (s : State) : Bool × State :=
  if a.enable ≠ ccSuccess ∨ a.slot = 0 then (false, s.setDev di { s.devs di with speed := a.speed })
  else if a.address ≠ ccSuccess then (false, prepareEp0 env di a s)
  else markUsed di port (readConfig env di a (prepareEp0 env di a s))

end CanBoot.Xhci
