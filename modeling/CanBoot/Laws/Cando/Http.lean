import CanBoot.Cando.Http
import CanBoot.Lib.Prefixes

/-!
# HTTP results and TCP segmentation

The receive callback works byte by byte, so its statics are a function of the bytes it has copied (`received`), cut
into callbacks in whatever way. But it copies at most 512 bytes of each `pbuf`, and keeps at most 511 bytes of a
header. So the result depends on the segmentation where a segment loses bytes of the body, and a longer header is
never found to end (`segmentation_free_iff`).
-/

namespace CanBoot.Cando.Http

open Lib List

/-- The empty line that ends a header. -/
def crlfcrlf : List UInt8 := [13, 10, 13, 10]

/-- The header ends here. -/
def endsHeader (s : List UInt8) : Bool := crlfcrlf.isSuffixOf s

/-- Where the header ends: right behind the first `CRLFCRLF`. -/
def headerEnd (stream : List UInt8) : Option Nat := firstPrefix endsHeader stream

variable (s : List UInt8)

theorem getD_drop (n i : Nat) : (s.drop n).getD i 0 = s.getD (n + i) 0 := by
  simp only [getD_eq_getElem?_getD, getElem?_drop]

/-- The test of the callback. -/
theorem endsHeader_iff (hdr : List UInt8) :
    (hdr.length ≥ 4 ∧ hdr.getD (hdr.length - 4) 0 = 13 ∧ hdr.getD (hdr.length - 3) 0 = 10 ∧
      hdr.getD (hdr.length - 2) 0 = 13 ∧ hdr.getD (hdr.length - 1) 0 = 10) ↔ endsHeader hdr = true := by
  have four : ∀ l : List UInt8, l.length = 4 →
      (l.getD 0 0 = 13 ∧ l.getD 1 0 = 10 ∧ l.getD 2 0 = 13 ∧ l.getD 3 0 = 10 ↔ crlfcrlf = l) := by
    intro l size
    obtain ⟨w, x, y, z, rfl⟩ := length_eq_four.1 size
    simp [crlfcrlf, eq_comm]
  rw [endsHeader, List.isSuffixOf_iff_suffix, List.suffix_iff_eq_drop]
  by_cases long : 4 ≤ hdr.length
  · have last := four (hdr.drop (hdr.length - 4)) (by rw [length_drop]; omega)
    simp only [getD_drop] at last
    rw [show hdr.length - crlfcrlf.length = hdr.length - 4 from rfl, ← last, show hdr.length - 4 + 1 = hdr.length - 3 by omega,
      show hdr.length - 4 + 2 = hdr.length - 2 by omega, show hdr.length - 4 + 3 = hdr.length - 1 by omega]
    simp [long]
  · refine iff_of_false (fun all => long all.1) fun same => ?_
    have sizes := congrArg List.length same
    rw [length_drop] at sizes
    have : crlfcrlf.length = 4 := rfl
    omega

/-! ## The statics as a function of the bytes -/

variable {signed : Bool}

/-- The statics after the bytes `s`. -/
def received (signed : Bool) (s : List UInt8) : Tcp :=
  match headerEnd (s.take 511) with
  | none => ⟨false, false, 0, false, s.take 511, []⟩
  | some e => ⟨false, false, if 12 ≤ e then statusOf signed s else 0, true, s.take e, (s.drop e).take 4095⟩

theorem statusOf_take {n : Nat} (long : 12 ≤ n) : statusOf signed (s.take n) = statusOf signed s := by
  have same : ∀ i, i < 12 → (s.take n).getD i 0 = s.getD i 0 := by
    intro i less
    rw [getD_eq_getElem?_getD, getD_eq_getElem?_getD, getElem?_take_of_lt (by omega)]
  rw [statusOf, statusOf, same 9 (by omega), same 10 (by omega), same 11 (by omega)]

theorem statusOf_append {s : List UInt8} (t : List UInt8) (long : 12 ≤ s.length) :
    statusOf signed (s ++ t) = statusOf signed s := by
  rw [← statusOf_take (s ++ t) long, take_left]

/-- A byte where the header has not ended. -/
theorem recvByte_header {hdr : List UInt8} {b : UInt8} : recvByte signed ⟨false, false, 0, false, hdr, []⟩ b =
      let next := if hdr.length < 511 then hdr ++ [b] else hdr
      if endsHeader next then ⟨false, false, if 12 ≤ next.length then statusOf signed next else 0, true, next, []⟩
      else ⟨false, false, 0, false, next, []⟩ := by
  simp only [recvByte, Bool.not_false, if_true, endsHeader_iff]

theorem recvByte_body {status : Int} {hdr body : List UInt8} {b : UInt8} :
    recvByte signed ⟨false, false, status, true, hdr, body⟩ b =
      ⟨false, false, status, true, hdr, if body.length < 4095 then body ++ [b] else body⟩ := by
  simp only [recvByte, Bool.not_true, Bool.false_eq_true, if_false]
  split <;> rfl

theorem take_concat {α : Type} (s : List α) (b : α) (n : Nat) :
    (s ++ [b]).take n = if (s.take n).length < n then s.take n ++ [b] else s.take n := by
  rw [length_take]
  split
  next short =>
    rw [take_of_length_le (by simp; omega), take_of_length_le (by omega)]
  next full => rw [take_append_of_le_length (by omega)]

/-- **One more byte takes the statics of the bytes before it to those of the bytes with it.** -/
theorem recvByte_received (b : UInt8) : recvByte signed (received signed s) b = received signed (s ++ [b]) := by
  rw [received, received, take_concat s b 511]
  cases found : headerEnd (s.take 511) with
  | none =>
    simp only [recvByte_header]
    by_cases short : (s.take 511).length < 511
    · have whole : s.take 511 = s := by
        rw [length_take] at short
        exact take_of_length_le (by omega)
      simp only [short, if_true]
      rw [headerEnd, firstPrefix_concat found]
      rw [whole] at short ⊢
      by_cases ends : endsHeader (s ++ [b]) = true
      · simp [ends, take_of_length_le, drop_of_length_le]
      · simp [ends]
    · have not : endsHeader (s.take 511) = false := by
        have := firstPrefix_eq_none.1 found (s.take 511).length (le_refl _)
        rwa [take_length] at this
      simp only [short, if_false, found, not, Bool.false_eq_true]
  | some e =>
    obtain ⟨inside, -, -⟩ := firstPrefix_eq_some.1 found
    rw [length_take] at inside
    have still : headerEnd (if (s.take 511).length < 511 then s.take 511 ++ [b] else s.take 511) = some e := by
      split
      · exact firstPrefix_append found [b]
      · exact found
    simp only [still, recvByte_body]
    rw [take_append_of_le_length (by omega), drop_append_of_le_length (by omega), take_concat]
    congr 1
    split
    next long => rw [statusOf_append _ (by omega)]
    next => rfl

theorem foldl_received (t : List UInt8) : t.foldl (recvByte signed) (received signed s) = received signed (s ++ t) := by
  induction t generalizing s with
  | nil => rw [append_nil]; rfl
  | cons b t ih => rw [foldl_cons, recvByte_received, ih, append_assoc, singleton_append]

/-! ## Segments -/

/-- The stream as the callback gets it. -/
def Cuts (stream : List UInt8) (segments : List Pbuf) : Prop := segments.flatMap Pbuf.payload = stream

/-- What the callback copies. -/
def kept (segments : List Pbuf) : List UInt8 := segments.flatMap fun p => p.payload.take 512

/-- The statics when the server has sent these segments and closed the connection. -/
def answer (signed : Bool) (segments : List Pbuf) : Tcp :=
  tcpRecvCb signed (segments.foldl (fun g p => tcpRecvCb signed g true (some p)) Tcp.start) true none

variable (segments : List Pbuf)

/-- **The statics depend on the bytes copied alone.** -/
theorem answer_eq : answer signed segments = { received signed (kept segments) with done := true } := by
  have run : ∀ (segments : List Pbuf) (s : List UInt8),
      segments.foldl (fun g p => tcpRecvCb signed g true (some p)) (received signed s) =
        received signed (s ++ kept segments) := by
    intro segments
    induction segments with
    | nil =>
      intro s
      rw [kept, flatMap_nil, append_nil]
      rfl
    | cons p segments ih =>
      intro s
      rw [foldl_cons]
      show segments.foldl _ ((p.payload.take 512).foldl (recvByte signed) (received signed s)) = _
      rw [foldl_received, ih, append_assoc]
      rfl
  have start : Tcp.start = received signed [] := rfl
  rw [answer, start, run, nil_append]
  rfl

/-- Nothing of the first 512 bytes is lost. -/
theorem take_kept : ∀ {segments : List Pbuf} {stream : List UInt8}, Cuts stream segments →
    (kept segments).take 512 = stream.take 512
  | [], stream, cuts => by rw [← cuts]; rfl
  | p :: segments, stream, cuts => by
    have rest : (kept segments).take 512 = (segments.flatMap Pbuf.payload).take 512 := take_kept rfl
    rw [← cuts, kept, flatMap_cons, flatMap_cons]
    rcases Nat.lt_or_ge 512 p.payload.length with long | short
    · rw [take_append_of_le_length (by rw [length_take]; omega), take_take, Nat.min_self,
        take_append_of_le_length (by omega)]
    · rw [take_of_length_le short, take_append, take_append]
      congr 1
      have := congrArg (List.take (512 - p.payload.length)) rest
      rwa [take_take, take_take, Nat.min_eq_left (by omega)] at this

/-- What the caller gets: the status and the body. -/
def result (signed : Bool) (segments : List Pbuf) : Option (Int × List UInt8) := httpGet (answer signed segments) 4096

theorem result_eq :
    result signed segments = some ((received signed (kept segments)).status, (received signed (kept segments)).body) := by
  have small : (received signed (kept segments)).body.length ≤ 4095 := by
    rw [received]
    split
    · exact Nat.zero_le _
    · exact length_take_le _ _
  rw [result, answer_eq, httpGet, if_neg (by simp [received]; split <;> rfl)]
  congr 2
  refine take_of_length_le ?_
  split <;> omega

/-- `net.httpGet` answers as `http.get` does. -/
theorem nHttpGet_eq : nHttpGet (answer signed segments) = match result signed segments with
      | none => .null
      | some (status, body) => if status ≠ 200 then .null else .string body := by
  rw [result_eq, answer_eq, nHttpGet]
  have still : (received signed (kept segments)).fail = false := by
    rw [received]
    split <;> rfl
  simp [still]

section Results

variable {stream : List UInt8} {segments : List Pbuf} {e : Nat}

theorem take_kept_header (cuts : Cuts stream segments) : (kept segments).take 511 = stream.take 511 := by
  have same := congrArg (List.take 511) (take_kept cuts)
  rwa [take_take, take_take] at same

/-- A header that has not ended after 511 bytes never does. -/
theorem result_of_long (cuts : Cuts stream segments) (long : headerEnd (stream.take 511) = none) :
    result signed segments = some (0, []) := by
  rw [result_eq, received, take_kept_header cuts, long]

/-- The first bytes of the body that the callback copies. -/
def bodyKept (segments : List Pbuf) (e : Nat) : List UInt8 := ((kept segments).drop e).take 4095

theorem result_of_short (cuts : Cuts stream segments) (found : headerEnd stream = some e) (short : e ≤ 511) :
    result signed segments = some (if 12 ≤ e then statusOf signed stream else 0, bodyKept segments e) := by
  have status : 12 ≤ e → statusOf signed (kept segments) = statusOf signed stream := by
    intro long
    have firsts := take_kept_header cuts
    rw [← statusOf_take (kept segments) (by omega : 12 ≤ 511), firsts, statusOf_take _ (by omega)]
  have ends : headerEnd (stream.take 511) = some e := firstPrefix_take_of_le found short
  rw [result_eq, received, take_kept_header cuts, ends]
  refine congrArg some (Prod.ext ?_ rfl)
  by_cases long : 12 ≤ e
  · simp only [long, if_true, status long]
  · simp only [long, if_false]

end Results

/-- **The result does not depend on the segmentation**, and is what the stream says: two ways to cut the stream give the
same status and body; and if the first `CRLFCRLF` stands behind at least 12 bytes, these are the status at offsets 9 to
11 and the first 4095 bytes behind it. -/
structure SegmentationFree (signed : Bool) (stream : List UInt8) (a b : List Pbuf) : Prop where
  same : result signed a = result signed b
  net : nHttpGet (answer signed a) = nHttpGet (answer signed b)
  read : ∀ e, headerEnd stream = some e → 12 + 4 ≤ e →
    result signed a = some (statusOf signed stream, (stream.drop e).take 4095)

/-- The header ends within 511 bytes and both cuts keep the same body, which is the stream's where the status is read;
or the header is longer, and there is no status and no body to be lost. -/
def Survives (signed : Bool) (stream : List UInt8) (a b : List Pbuf) : Prop :=
  ∀ e, headerEnd stream = some e →
    (e ≤ 511 → bodyKept a e = bodyKept b e ∧ (16 ≤ e → bodyKept a e = (stream.drop e).take 4095)) ∧
      (511 < e → statusOf signed stream = 0 ∧ stream.length = e)

/-- **HTTP results depend on the segmentation exactly where a segment loses bytes of the body, and long headers are never
read.** For every stream and any two ways to cut it into `pbuf`s. -/
theorem segmentation_free_iff (signed : Bool) (stream : List UInt8) (a b : List Pbuf) (cutsA : Cuts stream a)
    (cutsB : Cuts stream b) : SegmentationFree signed stream a b ↔ Survives signed stream a b := by
  have net : result signed a = result signed b → nHttpGet (answer signed a) = nHttpGet (answer signed b) := by
    intro same
    rw [nHttpGet_eq, nHttpGet_eq, same]
  cases found : headerEnd stream with
  | none =>
    have long := firstPrefix_take_none found 511
    have same : result signed a = result signed b := by rw [result_of_long cutsA long, result_of_long cutsB long]
    refine iff_of_true ⟨same, net same, fun e ends => ?_⟩ fun e ends => ?_
    · rw [found] at ends
      cases ends
    · rw [found] at ends
      cases ends
  | some e =>
    have only : ∀ {P : Nat → Prop}, (∀ e', headerEnd stream = some e' → P e') ↔ P e := by
      intro P
      rw [found]
      constructor
      · intro all
        exact all e rfl
      · intro here e' same
        cases same
        exact here
    rw [Survives, only]
    by_cases short : e ≤ 511
    · have ra : result signed a = some _ := result_of_short cutsA found short
      have rb : result signed b = some _ := result_of_short cutsB found short
      constructor
      · intro free
        refine ⟨fun _ => ⟨?_, fun long => ?_⟩, fun past => by omega⟩
        · have same := free.same
          rw [ra, rb] at same
          exact (Prod.ext_iff.1 (Option.some.inj same)).2
        · have read := free.read e found long
          rw [ra] at read
          exact (Prod.ext_iff.1 (Option.some.inj read)).2
      · rintro ⟨kept, -⟩
        obtain ⟨bodies, whole⟩ := kept short
        have same : result signed a = result signed b := by rw [ra, rb, bodies]
        refine ⟨same, net same, only.2 fun long => ?_⟩
        rw [ra, if_pos (by omega), whole long]
    · have long := firstPrefix_take_of_lt found (by omega : 511 < e)
      have ra : result signed a = some (0, []) := result_of_long cutsA long
      have rb : result signed b = some (0, []) := result_of_long cutsB long
      have same : result signed a = result signed b := by rw [ra, rb]
      obtain ⟨inside, -, -⟩ := firstPrefix_eq_some.1 found
      constructor
      · intro free
        have read := free.read e found (by omega)
        rw [ra] at read
        obtain ⟨status, body⟩ := Prod.ext_iff.1 (Option.some.inj read)
        refine ⟨fun past => absurd past short, fun _ => ⟨status.symm, ?_⟩⟩
        have sizes := congrArg List.length body
        simp only [length_nil, length_take, length_drop] at sizes
        omega
      · rintro ⟨-, empty⟩
        obtain ⟨status, ends⟩ := empty (by omega)
        refine ⟨same, net same, only.2 fun _ => ?_⟩
        rw [ra, status, drop_of_length_le (by omega), take_nil]

/-- A response of 19 bytes of header and 600 of body. -/
def sample : List UInt8 := ascii "HTTP/1.1 200 OK" ++ crlfcrlf ++ List.replicate 600 97

/-- The response in one segment, and in two. -/
def oneSegment : List Pbuf := [⟨sample, by decide +kernel⟩]

def twoSegments : List Pbuf := [⟨sample.take 512, by decide +kernel⟩, ⟨sample.drop 512, by decide +kernel⟩]

/-- A short response, in one segment and in two. -/
theorem segmentation_free_small : SegmentationFree true (ascii "HTTP/1.1 200 OK" ++ crlfcrlf)
    [⟨ascii "HTTP/1.1 200 OK" ++ crlfcrlf, by decide +kernel⟩]
    [⟨ascii "HTTP/1.1 200 OK", by decide +kernel⟩, ⟨crlfcrlf, by decide +kernel⟩] := by
  refine (segmentation_free_iff true _ _ _ (by simp [Cuts]) (by simp [Cuts])).2 fun e ends => ?_
  have here : headerEnd (ascii "HTTP/1.1 200 OK" ++ crlfcrlf) = some 19 := by decide +kernel
  rw [here] at ends
  cases ends
  exact ⟨fun _ => by decide +kernel, fun past => absurd past (by decide)⟩

/-- The same response gives a body of 493 or of 600 bytes. -/
theorem one_segment_loses_body : Cuts sample oneSegment ∧ Cuts sample twoSegments ∧
    result true oneSegment = some (200, List.replicate 493 97) ∧
    result true twoSegments = some (200, List.replicate 600 97) := by
  refine ⟨?_, ?_, ?_, ?_⟩
  · simp [Cuts, oneSegment]
  · simp [Cuts, twoSegments]
  · decide +kernel
  · decide +kernel

end CanBoot.Cando.Http
