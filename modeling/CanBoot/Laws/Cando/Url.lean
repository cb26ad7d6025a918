import CanBoot.Cando.Http
import Mathlib.Tactic.Linarith

/-!
# The two URL parsers

`parse` in `url.c` and `parse_url` in `http.c` read a URL alike as long as the host fits the array of `parse_url`. A
longer host is cut, and what follows the cut is taken for what follows the host (`url_parsers_agree_iff`).
-/

namespace CanBoot.Cando

open Lib Lib.Prog List

/-! ## Hosts -/

theorem takeHost_fits : ∀ {room : Nat} {s : List UInt8}, (s.takeWhile inHost).length ≤ room →
    takeHost room s = (s.takeWhile inHost, s.dropWhile inHost)
  | 0, [], _ => rfl
  | _ + 1, [], _ => rfl
  | 0, c :: s, fits => by
    have ends : inHost c = false := by
      by_contra more
      rw [takeWhile_cons_of_pos (by simpa using more)] at fits
      simp at fits
    rw [takeHost, takeWhile_cons_of_neg (by simp [ends]), dropWhile_cons_of_neg (by simp [ends])]
  | room + 1, c :: s, fits => by
    rw [takeHost]
    by_cases more : inHost c = true
    · rw [takeWhile_cons_of_pos more, length_cons] at fits
      rw [if_pos more, takeHost_fits (by omega), takeWhile_cons_of_pos more, dropWhile_cons_of_pos more]
    · rw [if_neg more, takeWhile_cons_of_neg more, dropWhile_cons_of_neg more]

/-- A host that does not fit is cut, and leaves a character of the host as the next one. -/
theorem takeHost_cut : ∀ {room : Nat} {s : List UInt8}, room < (s.takeWhile inHost).length →
    ∃ c rest, inHost c = true ∧ takeHost room s = ((s.takeWhile inHost).take room, c :: rest)
  | _, [], cut => absurd cut (Nat.not_lt_zero _)
  | 0, c :: s, cut => by
    by_cases more : inHost c = true
    · exact ⟨c, s, more, by rw [takeHost, take_zero]⟩
    · rw [takeWhile_cons_of_neg more] at cut
      exact absurd cut (Nat.not_lt_zero _)
  | room + 1, c :: s, cut => by
    by_cases more : inHost c = true
    · rw [takeWhile_cons_of_pos more, length_cons] at cut
      obtain ⟨d, rest, host, takes⟩ := takeHost_cut (show room < (s.takeWhile inHost).length by omega)
      refine ⟨d, rest, host, ?_⟩
      rw [takeHost, if_pos more, takes, takeWhile_cons_of_pos more, take_succ_cons]
    · rw [takeWhile_cons_of_neg more] at cut
      exact absurd cut (Nat.not_lt_zero _)

/-! ## Ports -/

/-- The digits of the port, if the host is followed by one. -/
def portDigits (url : List UInt8) : List UInt8 :=
  match strstr (ascii "://") url with
  | none => []
  | some (_, colon) =>
    match (colon.drop 3).dropWhile inHost with
    | 58 :: s => s.takeWhile isDigit
    | _ => []

theorem isDigit_le {c : UInt8} (digit : isDigit c = true) : 48 ≤ c.toNat ∧ c.toNat ≤ 57 := by
  simp only [isDigit, Bool.and_eq_true, decide_eq_true_eq, UInt8.le_iff_toNat_le] at digit
  exact digit

/-- Few digits do not overflow. -/
theorem run_scanPort {fuel : Nat} : ∀ {s : List UInt8} {n : Int}, 0 ≤ n →
    (n + 1) * 10 ^ (s.takeWhile isDigit).length ≤ 10 ^ 9 → ∃ port rest, (scanPort n s).run fuel () = .ok (port, rest) ()
  | [], n, _, _ => ⟨n, [], rfl⟩
  | c :: s, n, start, few => by
    rw [scanPort]
    by_cases digit : isDigit c = true
    · obtain ⟨low, high⟩ := isDigit_le digit
      rw [takeWhile_cons_of_pos digit, length_cons, pow_succ'] at few
      have power : (1 : Int) ≤ 10 ^ (s.takeWhile isDigit).length := one_le_pow₀ (by omega)
      have next : (n * 10 + ((c.toNat : Int) - 48) + 1) * 10 ^ (s.takeWhile isDigit).length ≤ 10 ^ 9 := by
        refine le_trans ?_ few
        rw [← mul_assoc]
        exact Int.mul_le_mul_of_nonneg_right (by omega) (by omega)
      have small : n * 10 + ((c.toNat : Int) - 48) + 1 ≤ 10 ^ 9 :=
        le_trans (le_mul_of_one_le_right (by omega) power) next
      rw [if_pos digit, run_bind_ok (run_int32 (by unfold InInt32; omega) _ _),
        run_bind_ok (run_int32 (by unfold InInt32; omega) _ _)]
      exact run_scanPort (by omega) next
    · rw [if_neg digit]
      exact ⟨n, c :: s, rfl⟩

theorem run_takePort {fuel : Nat} {s : List UInt8} (few : ∀ t, s = 58 :: t → (t.takeWhile isDigit).length ≤ 9) :
    ∃ port rest, (takePort s).run fuel () = .ok (port, rest) () := by
  unfold takePort
  split
  next t =>
    refine run_scanPort (le_refl (0 : Int)) ?_
    rw [zero_add, one_mul]
    exact pow_le_pow_right₀ (by omega) (few t rfl)
  next => exact ⟨0, s, rfl⟩

/-! ## Agreement -/

variable {fuel : Nat}

/-- The parsers agree on a URL: both reject it, or both accept it and extract the same parts, or its host does not fit
the array of `parse_url` and `parse_url` rejects it. -/
def ParsersAgree (fuel : Nat) (url : List UInt8) : Prop :=
  match (parse url).run fuel (), (parseUrl url).run fuel () with
  | .ok p _, .ok q _ => p = q
  | .err _, .err _ => True
  | .ok p _, .err _ => 64 ≤ p.host.length
  | _, _ => False

theorem parsersAgree_ok {url : List UInt8} {p q : UrlParts} (first : (parse url).run fuel () = .ok p ())
    (second : (parseUrl url).run fuel () = .ok q ()) : ParsersAgree fuel url ↔ p = q := by
  simp only [ParsersAgree, first, second]

section

variable {url scheme colon : List UInt8} (found : strstr (ascii "://") url = some (scheme, colon))

include found

/-- `parse`, with few digits, accepts every text with `://` in it. -/
theorem run_parse (few : (portDigits url).length ≤ 9) :
    ∃ p, (parse url).run fuel () = .ok p () ∧ p.host = (colon.drop 3).takeWhile inHost := by
  have digits : ∀ t, (colon.drop 3).dropWhile inHost = 58 :: t → (t.takeWhile isDigit).length ≤ 9 := by
    intro t after
    simpa only [portDigits, found, after] using few
  obtain ⟨port, rest, takes⟩ : ∃ port rest, (takePort _).run fuel () = .ok (port, rest) () := run_takePort digits
  simp only [parse, found]
  rw [run_bind_ok takes]
  exact ⟨_, rfl, rfl⟩

/-- Where the host fits, the parsers are the same. -/
theorem parseUrl_eq (fits : ((colon.drop 3).takeWhile inHost).length ≤ 63) : parseUrl url = parse url := by
  simp only [parse, parseUrl, found, takeHost_fits fits]
  congr 1
  funext r
  obtain ⟨port, s⟩ := r
  cases s with
  | nil => rfl
  | cons c s => simp

/-- Where it does not fit, `parse_url` accepts with a cut host. -/
theorem run_parseUrl_cut (cut : 63 < ((colon.drop 3).takeWhile inHost).length) :
    ∃ q, (parseUrl url).run fuel () = .ok q () ∧ q.host = ((colon.drop 3).takeWhile inHost).take 63 := by
  obtain ⟨c, rest, host, takes⟩ := takeHost_cut cut
  have next : takePort (c :: rest) = pure (0, c :: rest) := by
    unfold takePort
    split
    next t same =>
      cases same
      exact absurd host (by decide)
    next => rfl
  simp only [parseUrl, found, takes, next]
  exact ⟨_, rfl, rfl⟩

end

/-- **The two URL parsers agree exactly on hosts that fit.** For every text with at most nine port digits, they agree
if and only if every host that `parse` extracts from it has at most 63 characters. -/
theorem url_parsers_agree_iff (fuel : Nat) (url : List UInt8) (few : (portDigits url).length ≤ 9) :
    ParsersAgree fuel url ↔ ∀ p, (parse url).run fuel () = .ok p () → p.host.length ≤ 63 := by
  cases found : strstr (ascii "://") url with
  | none =>
    have rejects : (parse url).run fuel () = .err () := by simp only [parse, found, Prog.run_fail]
    have rejects' : (parseUrl url).run fuel () = .err () := by simp only [parseUrl, found, Prog.run_fail]
    simp only [ParsersAgree, rejects, rejects', true_iff]
    intro p accepts
    cases accepts
  | some r =>
    obtain ⟨scheme, colon⟩ := r
    obtain ⟨p, accepts, host⟩ : ∃ p, (parse url).run fuel () = .ok p () ∧ _ := run_parse found few
    have only : (∀ p, (parse url).run fuel () = .ok p () → p.host.length ≤ 63) ↔ p.host.length ≤ 63 := by
      rw [accepts]
      constructor
      · intro all
        exact all p rfl
      · intro short q same
        cases same
        exact short
    rw [only]
    by_cases fits : p.host.length ≤ 63
    · rw [parsersAgree_ok accepts (by rw [parseUrl_eq found (host ▸ fits), accepts])]
      simp [fits]
    · obtain ⟨q, accepts', host'⟩ : ∃ q, (parseUrl url).run fuel () = .ok q () ∧ _ :=
        run_parseUrl_cut found (by rw [← host]; omega)
      rw [parsersAgree_ok accepts accepts']
      refine iff_of_false ?_ fits
      intro same
      have : p.host.length = (p.host.take 63).length := by rw [host, ← host', ← same, host]
      rw [length_take] at this
      omega

/-- A plain URL. -/
theorem url_parsers_agree_short : ParsersAgree 0 (ascii "http://10.0.2.2:8080/") :=
  (url_parsers_agree_iff 0 _ (by decide +kernel)).2 fun p accepts => by
    have : ((parse (ascii "http://10.0.2.2:8080/")).run 0 ()).value.all (·.host.length ≤ 63) = true := by decide +kernel
    rw [accepts] at this
    simpa [Outcome.value] using this

/-- A host of 64 letters: `parse` finds port 8080 and the path `/x`, `parse_url` port 80 and the path `/`. -/
theorem long_host_misread : ((parse (ascii "http://" ++ List.replicate 64 97 ++ ascii ":8080/x")).run 0 ()).value =
      some ⟨ascii "http", List.replicate 64 97, 8080, ascii "/x"⟩ ∧
    ((parseUrl (ascii "http://" ++ List.replicate 64 97 ++ ascii ":8080/x")).run 0 ()).value =
      some ⟨ascii "http", List.replicate 63 97, 80, ascii "/"⟩ := by
  constructor <;> decide +kernel

end CanBoot.Cando
