import CryptoValid.Lib.Gregorian
import CryptoValid.Tip
import Mathlib.Algebra.Order.Field.Rat
import Mathlib.Tactic.FieldSimp
import Mathlib.Tactic.Linarith

/-!
This module contains the timestamp profile of the tips as a set of instants, and its readers in Go,
JavaScript and Java. The four languages match the same regular expression, `tsFields`.
-/

namespace CryptoValid
namespace Tip

/--
The last `n` decimal digits of a number.
-/
def pad : Nat → Nat → Str
  | 0, _ => []
  | n + 1, k => pad n (k / 10) ++ [Json.digit (k % 10)]

/-!
### The profile
-/

inductive Zone where
  | utc
  | offset (negative : Bool) (oh om : Nat)

namespace Zone

def text : Zone → Str
  | .utc => txt "Z"
  | .offset negative oh om =>
    (if negative then txt "-" else txt "+") ++ pad 2 oh ++ txt ":" ++ pad 2 om

/--
The seconds that a clock of the zone is ahead of UTC.
-/
def seconds : Zone → Int
  | .utc => 0
  | .offset negative oh om => if negative then -(oh * 3600 + om * 60) else oh * 3600 + om * 60

def InRange : Zone → Prop
  | .utc => True
  | .offset _ oh om => oh ≤ 23 ∧ om ≤ 59

end Zone

/--
A timestamp of the profile: a date of the calendar, a time of day without leap seconds, a fraction
of at most nine digits and a zone.
-/
structure Timestamp where
  y : Nat
  mo : Nat
  d : Nat
  h : Nat
  mi : Nat
  sec : Nat
  frac : Option Str
  zone : Zone
  date : Gregorian.IsDate y mo d ∧ y ≤ 9999
  time : h ≤ 23 ∧ mi ≤ 59 ∧ sec ≤ 59
  digits : ∀ f, frac = some f → 1 ≤ f.length ∧ f.length ≤ 9 ∧ ∀ c ∈ f, Json.isDigit c = true
  inRange : zone.InRange

namespace Timestamp

def fraction : Option Str → Str
  | none => []
  | some f => .ofChar '.' :: f

def text (t : Timestamp) : Str :=
  pad 4 t.y ++ .ofChar '-' :: pad 2 t.mo ++ .ofChar '-' :: pad 2 t.d ++ .ofChar 'T' :: pad 2 t.h ++
    .ofChar ':' :: pad 2 t.mi ++ .ofChar ':' :: pad 2 t.sec ++ fraction t.frac ++ t.zone.text

/--
The fraction of a second that digits after the point stand for.
-/
def fractionValue : Option Str → Rat
  | none => 0
  | some f => Json.natOfText f / 10 ^ f.length

/--
The time that has passed in UTC since 1970-01-01, in seconds.
-/
def utc (t : Timestamp) : Rat :=
  ((Gregorian.dayNumber t.y t.mo t.d : Rat) - Gregorian.dayNumber 1970 1 1) * 86400 + t.h * 3600 +
    t.mi * 60 + t.sec - t.zone.seconds + fractionValue t.frac

end Timestamp

/-!
### The other languages
-/

namespace Go

def absoluteYears : Nat := 292277022400

/--
`dateToAbsDays` of the package `time`: the days since the first of March of a year long ago.
-/
def dateToAbsDays (year month day : Nat) : Nat :=
  let janFeb := if month < 3 then 1 else 0
  let amonth := month + 12 * janFeb
  let y := year - janFeb + absoluteYears
  let ayday := (amonth * 979 - 2919) / 32
  let century := y / 100
  let cyear := y % 100
  let cday := 1461 * cyear / 4
  let centurydays := 146097 * century / 4
  centurydays + (cday + ayday + day - 1)

def absoluteToInternal : Int := -((absoluteYears / 400 * 146097 + 306) * 86400)

def internalToUnix : Int := -((1969 * 365 + 1969 / 4 - 1969 / 100 + 1969 / 400) * 86400)

/--
`time.Date` in a fixed zone, as the Unix time of the result.
-/
def date (year month day h mi sec nsec : Nat) (offset : Int) : Instant :=
  let abs := dateToAbsDays year month day * 86400 + h * 3600 + mi * 60 + sec
  ⟨abs + (absoluteToInternal + internalToUnix) - offset, nsec⟩

def parseInstant (s : Str) : Except Str Instant :=
  match tsFields s with
  | none => .error (txt "timestamp outside the profile YYYY-MM-DDThh:mm:ss[.fraction](Z|±hh:mm)")
  | some m =>
    if m.y < 1 || 9999 < m.y || m.mo < 1 || 12 < m.mo || 23 < m.h || 59 < m.mi || 59 < m.sec then
      .error (txt "timestamp field out of range")
    else
      let leap := (m.y % 4 = 0 && m.y % 100 ≠ 0) || m.y % 400 = 0
      let dim := [31, 28, 31, 30, 31, 30, 31, 31, 30, 31, 30, 31].getD (m.mo - 1) 0
      let dim := if m.mo = 2 && leap then 29 else dim
      if m.d < 1 || dim < m.d then
        .error (txt "timestamp day does not exist in that month")
      else
        let oh := Json.natOfText ((m.off.drop 1).take 2)
        let om := Json.natOfText ((m.off.drop 4).take 2)
        if m.off ≠ txt "Z" ∧ (23 < oh || 59 < om) then
          .error (txt "timestamp offset out of range")
        else
          let offSec : Int :=
            if m.off = txt "Z" then 0
            else if m.off.head? = some (.ofChar '-') then -(oh * 3600 + om * 60)
            else oh * 3600 + om * 60
          let nanos :=
            match m.frac with
            | none => 0
            | some f => Json.natOfText ((f ++ txt "000000000").take 9)
          .ok (date m.y m.mo m.d m.h m.mi m.sec nanos offSec)

/--
`Time.Before`.
-/
def before (t u : Instant) : Bool :=
  t.seconds < u.seconds || t.seconds = u.seconds && t.nanos < u.nanos

end Go

namespace Js

/--
`DayFromYear` of the language, counted from 1970.
-/
def dayFromYear (y : Int) : Int :=
  365 * (y - 1970) + (y - 1969) / 4 - (y - 1901) / 100 + (y - 1601) / 400

/--
The milliseconds of a date that was set with `setUTCFullYear` and `setUTCHours`.
-/
def getTime (y mo d h mi sec : Nat) : Int :=
  let leap := (y % 4 = 0 && y % 100 ≠ 0) || y % 400 = 0
  let start : Nat := [0, 31, 59, 90, 120, 151, 181, 212, 243, 273, 304, 334].getD (mo - 1) 0
  let start := if 2 < mo && leap then start + 1 else start
  let day := dayFromYear y + start + (d - 1)
  day * 86400000 + (h * 3600000 + mi * 60000 + sec * 1000)

/--
`null` is `none`.
-/
def parseInstant (s : Str) : Option Instant :=
  match tsFields s with
  | none => none
  | some m =>
    if m.y < 1 || 9999 < m.y || m.mo < 1 || 12 < m.mo || 23 < m.h || 59 < m.mi || 59 < m.sec then none
    else
      let leap := (m.y % 4 = 0 && m.y % 100 ≠ 0) || m.y % 400 = 0
      let dim :=
        [31, if leap then 29 else 28, 31, 30, 31, 30, 31, 31, 30, 31, 30, 31].getD (m.mo - 1) 0
      if m.d < 1 || dim < m.d then none
      else
        let oh := Json.natOfText ((m.off.drop 1).take 2)
        let om := Json.natOfText ((m.off.drop 4).take 2)
        if m.off ≠ txt "Z" ∧ (23 < oh || 59 < om) then none
        else
          let offSec : Int :=
            if m.off = txt "Z" then 0
            else (oh * 3600 + om * 60) * (if m.off.head? = some (.ofChar '-') then -1 else 1)
          let nanos := Json.natOfText ((m.frac.getD (txt "0") ++ txt "000000000").take 9)
          some ⟨getTime m.y m.mo m.d m.h m.mi m.sec / 1000 - offSec, nanos⟩

def instantBefore (a b : Instant) : Bool :=
  a.seconds < b.seconds || (a.seconds = b.seconds && a.nanos < b.nanos)

end Js

namespace Java

/--
`LocalDate.of(y, mo, d).toEpochDay()`.
-/
def toEpochDay (y m d : Nat) : Int :=
  let total : Int := 365 * y + (((y + 3) / 4 : Nat) - ((y + 99) / 100 : Nat) + ((y + 399) / 400 : Nat))
  let total := total + ((367 * m - 362) / 12 : Nat) + (d - 1)
  let leap := (y % 4 = 0 && y % 100 ≠ 0) || y % 400 = 0
  let total := if 2 < m then (if leap then total - 1 else total - 2) else total
  total - 719528

/--
The error is the text of the exception.
-/
def parseInstant (s : Str) : Except Str Instant :=
  match tsFields s with
  | none => .error (txt "timestamp outside the profile YYYY-MM-DDThh:mm:ss[.fraction](Z|±hh:mm)")
  | some m =>
    if m.y < 1 || 9999 < m.y || m.mo < 1 || 12 < m.mo || 23 < m.h || 59 < m.mi || 59 < m.sec then
      .error (txt "timestamp field out of range")
    else
      let leap := (m.y % 4 = 0 && m.y % 100 ≠ 0) || m.y % 400 = 0
      let dim :=
        [31, if leap then 29 else 28, 31, 30, 31, 30, 31, 31, 30, 31, 30, 31].getD (m.mo - 1) 0
      if m.d < 1 || dim < m.d then
        .error (txt "timestamp day does not exist in that month")
      else
        let oh := Json.natOfText ((m.off.drop 1).take 2)
        let om := Json.natOfText ((m.off.drop 4).take 2)
        if m.off ≠ txt "Z" ∧ (23 < oh || 59 < om) then
          .error (txt "timestamp offset out of range")
        else
          let off : Int :=
            if m.off = txt "Z" then 0
            else if m.off.head? = some (.ofChar '-') then -(oh * 3600 + om * 60)
            else oh * 3600 + om * 60
          let nanos :=
            match m.frac with
            | none => 0
            | some f => Json.natOfText ((f ++ txt "000000000").take 9)
          let days := toEpochDay m.y m.mo m.d
          .ok ⟨days * 86400 + m.h * 3600 + m.mi * 60 + m.sec - off, nanos⟩

def before (a b : Instant) : Bool :=
  a.seconds < b.seconds || (a.seconds = b.seconds && a.nanos < b.nanos)

end Java

/-!
### Digits
-/

theorem length_pad (n k : Nat) : (pad n k).length = n := by
  induction n generalizing k with
  | zero => rfl
  | succ n ih => rw [pad, List.length_append, ih, List.length_singleton]

theorem isDigit_pad (n k : Nat) : ∀ c ∈ pad n k, Json.isDigit c = true := by
  induction n generalizing k with
  | zero => simp [pad]
  | succ n ih =>
    intro c hc
    rw [pad, List.mem_append, List.mem_singleton] at hc
    rcases hc with hc | rfl
    . exact ih _ c hc
    . exact Json.isDigit_digit _ (Nat.mod_lt _ (by omega))

theorem natOfText_concat (s : Str) (c : CodePoint)
    : Json.natOfText (s ++ [c]) = 10 * Json.natOfText s + (c.val - 48) := by
  simp [Json.natOfText]

theorem natOfText_pad {n k : Nat} (hk : k < 10 ^ n) : Json.natOfText (pad n k) = k := by
  induction n generalizing k with
  | zero =>
    rw [pad]
    simp [Json.natOfText] at hk ⊢
    omega
  | succ n ih =>
    have hdigit : ∀ d < 10, (Json.digit d).val - 48 = d := by decide
    rw [pad, natOfText_concat, ih (by rw [pow_succ] at hk; omega),
      hdigit _ (Nat.mod_lt _ (by omega))]
    omega

theorem natOfText_lt {s : Str} (hs : ∀ c ∈ s, Json.isDigit c = true)
    : Json.natOfText s < 10 ^ s.length := by
  induction s using List.reverseRecOn with
  | nil => simp [Json.natOfText]
  | append_singleton s c ih =>
    have hc := hs c (by simp)
    simp only [Json.isDigit, Bool.and_eq_true, decide_eq_true_eq] at hc
    have hlt := ih fun d hd => hs d (by simp [hd])
    rw [natOfText_concat, List.length_append, List.length_singleton, pow_succ]
    omega

theorem pad_natOfText {s : Str} (hs : ∀ c ∈ s, Json.isDigit c = true)
    : pad s.length (Json.natOfText s) = s := by
  induction s using List.reverseRecOn with
  | nil => rfl
  | append_singleton s c ih =>
    have hc := hs c (by simp)
    have hdigit : Json.digit (c.val - 48) = c := by
      simp only [Json.isDigit, Bool.and_eq_true, decide_eq_true_eq] at hc
      rw [Json.digit, show 48 + (c.val - 48) = c.val by omega, CodePoint.ofNat_val]
    simp only [Json.isDigit, Bool.and_eq_true, decide_eq_true_eq] at hc
    rw [natOfText_concat, List.length_append, List.length_singleton, pad,
      show (10 * Json.natOfText s + (c.val - 48)) / 10 = Json.natOfText s by omega,
      show (10 * Json.natOfText s + (c.val - 48)) % 10 = c.val - 48 by omega, hdigit,
      ih fun d hd => hs d (by simp [hd])]

theorem digits_eq_some {n k : Nat} {s rest : Str}
    : Tip.digits n s = some (k, rest) ↔ k < 10 ^ n ∧ s = pad n k ++ rest := by
  rw [Tip.digits]
  constructor
  . intro h
    split at h
    . next hdigits =>
      rw [Option.some.injEq, Prod.mk.injEq] at h
      have hall := List.all_eq_true.mp hdigits.2
      have hlt := natOfText_lt hall
      have hpad := pad_natOfText hall
      rw [hdigits.1] at hlt hpad
      rw [← h.1, ← h.2, hpad, List.take_append_drop]
      exact ⟨hlt, rfl⟩
    . cases h
  . rintro ⟨hk, rfl⟩
    have htake : (pad n k ++ rest).take n = pad n k := by
      rw [List.take_append_of_le_length (by rw [length_pad]), List.take_of_length_le (by rw [length_pad])]
    have hdrop : (pad n k ++ rest).drop n = rest := by
      rw [List.drop_append_of_le_length (by rw [length_pad]), List.drop_of_length_le (by rw [length_pad]),
        List.nil_append]
    rw [htake, hdrop, if_pos ⟨length_pad n k, List.all_eq_true.mpr (isDigit_pad n k)⟩, natOfText_pad hk]

theorem expect_eq_some {c : Char} {s rest : Str}
    : expect c s = some rest ↔ s = .ofChar c :: rest := by
  cases s with
  | nil => simp [expect]
  | cons d s =>
    rw [expect]
    split
    . next h => simp [h]
    . next h => simp [h]

/-!
### The shape
-/

namespace Zone

/--
Two digits for each of the numbers.
-/
def Digits : Zone → Prop
  | .utc => True
  | .offset _ oh om => oh < 100 ∧ om < 100

theorem InRange.digits {z : Zone} (h : z.InRange) : z.Digits := by
  cases z with
  | utc => trivial
  | offset negative oh om => exact ⟨by have := h.1; omega, by have := h.2; omega⟩

theorem text_eq_cons (z : Zone)
    : ∃ c rest, z.text = c :: rest ∧ Json.isDigit c = false ∧ c ≠ .ofChar '.' := by
  cases z with
  | utc => exact ⟨.ofChar 'Z', [], rfl, by decide, by decide⟩
  | offset negative oh om =>
    cases negative with
    | true => exact ⟨.ofChar '-', _, rfl, by decide, by decide⟩
    | false => exact ⟨.ofChar '+', _, rfl, by decide, by decide⟩

theorem pad_two (k : Nat) : pad 2 k = [Json.digit (k / 10 % 10), Json.digit (k % 10)] := rfl

theorem eq_pad_two {a b : CodePoint} (ha : Json.isDigit a = true) (hb : Json.isDigit b = true)
    : ∃ k < 100, [a, b] = pad 2 k := by
  have hall : ∀ c ∈ [a, b], Json.isDigit c = true := by simp [ha, hb]
  exact ⟨Json.natOfText [a, b], natOfText_lt hall, (pad_natOfText hall).symm⟩

theorem isOffset_iff {off : Str}
    : tsFields.isOffset off = true ↔ ∃ z : Zone, z.Digits ∧ off = z.text := by
  constructor
  . intro h
    unfold tsFields.isOffset at h
    split at h
    . next z => exact ⟨.utc, trivial, by rw [of_decide_eq_true h]; rfl⟩
    . next sign h1 h2 colon m1 m2 =>
      simp only [Bool.and_eq_true, Bool.or_eq_true, decide_eq_true_eq] at h
      rcases h with ⟨⟨⟨⟨⟨hsign, hh1⟩, hh2⟩, rfl⟩, hm1⟩, hm2⟩
      rcases eq_pad_two hh1 hh2 with ⟨oh, hoh, heqh⟩
      rcases eq_pad_two hm1 hm2 with ⟨om, hom, heqm⟩
      have htext : ∀ c : CodePoint,
          [c, h1, h2, .ofChar ':', m1, m2] = [c] ++ pad 2 oh ++ txt ":" ++ pad 2 om := by
        intro c
        rw [← heqh, ← heqm]
        rfl
      rw [htext]
      rcases hsign with rfl | rfl
      . exact ⟨.offset false oh om, ⟨hoh, hom⟩, rfl⟩
      . exact ⟨.offset true oh om, ⟨hoh, hom⟩, rfl⟩
    . cases h
  . rintro ⟨z, hz, rfl⟩
    cases z with
    | utc => rfl
    | offset negative oh om =>
      have hdigit : ∀ k : Nat, Json.isDigit (Json.digit (k % 10)) = true :=
        fun k => Json.isDigit_digit _ (Nat.mod_lt _ (by omega))
      have h1 := hdigit (oh / 10)
      have h2 := hdigit oh
      have h3 := hdigit (om / 10)
      have h4 := hdigit om
      cases negative <;>
        simp [text, pad_two, tsFields.isOffset, txt, h1, h2, h3, h4]

/--
What the parsers read from the text of a zone.
-/
theorem read_offset {negative : Bool} {oh om : Nat} (h : (offset negative oh om).Digits)
    : (offset negative oh om).text ≠ txt "Z" ∧
      Json.natOfText (((offset negative oh om).text.drop 1).take 2) = oh ∧
      Json.natOfText (((offset negative oh om).text.drop 4).take 2) = om ∧
      ((offset negative oh om).text.head? = some (.ofChar '-') ↔ negative = true) := by
  have hoh := natOfText_pad (n := 2) h.1
  have hom := natOfText_pad (n := 2) h.2
  rw [pad_two] at hoh hom
  cases negative with
  | true => exact ⟨by simp [text, txt], hoh, hom, by simp [text, txt]⟩
  | false =>
    have hhead : (offset false oh om).text.head? = some (.ofChar '+') := rfl
    refine ⟨by simp [text, txt], hoh, hom, ?_⟩
    rw [hhead]
    decide

end Zone

namespace TsFields

/--
What the regular expression leaves to the checks that follow.
-/
structure Shaped (m : TsFields) : Prop where
  y : m.y < 10 ^ 4
  mo : m.mo < 10 ^ 2
  d : m.d < 10 ^ 2
  h : m.h < 10 ^ 2
  mi : m.mi < 10 ^ 2
  sec : m.sec < 10 ^ 2
  frac : ∀ f, m.frac = some f → 1 ≤ f.length ∧ f.length ≤ 9 ∧ ∀ c ∈ f, Json.isDigit c = true
  off : tsFields.isOffset m.off = true

def text (m : TsFields) : Str :=
  pad 4 m.y ++ .ofChar '-' :: pad 2 m.mo ++ .ofChar '-' :: pad 2 m.d ++ .ofChar 'T' :: pad 2 m.h ++
    .ofChar ':' :: pad 2 m.mi ++ .ofChar ':' :: pad 2 m.sec ++ Timestamp.fraction m.frac ++ m.off

end TsFields

theorem fraction_eq_some {s off : Str} {frac : Option Str}
    (h : tsFields.fraction s = some (frac, off))
    : s = Timestamp.fraction frac ++ off ∧
        ∀ f, frac = some f → 1 ≤ f.length ∧ f.length ≤ 9 ∧ ∀ c ∈ f, Json.isDigit c = true := by
  rw [tsFields.fraction] at h
  split at h
  . rw [Option.some.injEq, Prod.mk.injEq] at h
    rw [← h.1, ← h.2]
    exact ⟨rfl, fun f hf => by cases hf⟩
  . next rest hexpect =>
    dsimp only at h
    split at h
    . cases h
    . next hlen =>
      rw [Option.some.injEq, Prod.mk.injEq] at h
      rw [Bool.or_eq_true, decide_eq_true_eq, List.isEmpty_iff, not_or, ← List.length_eq_zero_iff] at hlen
      rw [← h.1, ← h.2, expect_eq_some.mp hexpect]
      constructor
      . simp [Timestamp.fraction, List.takeWhile_append_dropWhile]
      . intro f hf
        rw [← Option.some.inj hf]
        exact ⟨by omega, by omega, fun c hc => List.mem_takeWhile_imp hc⟩

theorem fraction_append {frac : Option Str} {off : Str} (hoff : tsFields.isOffset off = true)
    (hfrac : ∀ f, frac = some f → 1 ≤ f.length ∧ f.length ≤ 9 ∧ ∀ c ∈ f, Json.isDigit c = true)
    : tsFields.fraction (Timestamp.fraction frac ++ off) = some (frac, off) := by
  rcases Zone.isOffset_iff.mp hoff with ⟨z, -, rfl⟩
  rcases z.text_eq_cons with ⟨c, rest, htext, hdigit, hpoint⟩
  cases frac with
  | none =>
    rw [Timestamp.fraction, List.nil_append, tsFields.fraction, htext, expect, if_neg hpoint]
  | some f =>
    rcases hfrac f rfl with ⟨hone, hnine, hall⟩
    have hexpect : expect '.' (Timestamp.fraction (some f) ++ z.text) = some (f ++ z.text) := rfl
    have htake : (f ++ z.text).takeWhile Json.isDigit = f := by
      rw [List.takeWhile_append_of_pos hall, htext, List.takeWhile_cons, hdigit]
      simp
    have hdrop : (f ++ z.text).dropWhile Json.isDigit = z.text := by
      rw [List.dropWhile_append_of_pos hall, htext, List.dropWhile_cons, hdigit]
      simp
    rw [tsFields.fraction, hexpect]
    simp only [htake, hdrop]
    rw [if_neg]
    rw [Bool.or_eq_true, decide_eq_true_eq, List.isEmpty_iff, not_or, ← List.length_eq_zero_iff]
    omega

theorem shaped_of_tsFields {ts : Str} {m : TsFields} (h : tsFields ts = some m)
    : m.Shaped ∧ ts = m.text := by
  rw [tsFields] at h
  rcases Option.bind_eq_some_iff.mp h with ⟨⟨y, s1⟩, h1, h⟩
  rcases Option.bind_eq_some_iff.mp h with ⟨s2, h2, h⟩
  rcases Option.bind_eq_some_iff.mp h with ⟨⟨mo, s3⟩, h3, h⟩
  rcases Option.bind_eq_some_iff.mp h with ⟨s4, h4, h⟩
  rcases Option.bind_eq_some_iff.mp h with ⟨⟨d, s5⟩, h5, h⟩
  rcases Option.bind_eq_some_iff.mp h with ⟨s6, h6, h⟩
  rcases Option.bind_eq_some_iff.mp h with ⟨⟨hr, s7⟩, h7, h⟩
  rcases Option.bind_eq_some_iff.mp h with ⟨s8, h8, h⟩
  rcases Option.bind_eq_some_iff.mp h with ⟨⟨mi, s9⟩, h9, h⟩
  rcases Option.bind_eq_some_iff.mp h with ⟨s10, h10, h⟩
  rcases Option.bind_eq_some_iff.mp h with ⟨⟨sec, s11⟩, h11, h⟩
  rcases Option.bind_eq_some_iff.mp h with ⟨⟨frac, off⟩, h12, h⟩
  rw [digits_eq_some] at h1 h3 h5 h7 h9 h11
  rw [expect_eq_some] at h2 h4 h6 h8 h10
  dsimp only at h
  split at h
  . next hoff =>
    rcases fraction_eq_some h12 with ⟨h12, hdigits⟩
    rw [← Option.some.inj h]
    refine ⟨⟨h1.1, h3.1, h5.1, h7.1, h9.1, h11.1, hdigits, hoff⟩, ?_⟩
    rw [h1.2, h2, h3.2, h4, h5.2, h6, h7.2, h8, h9.2, h10, h11.2, h12]
    simp only [TsFields.text, List.append_assoc, List.cons_append]
  . cases h

theorem tsFields_text {m : TsFields} (hm : m.Shaped) : tsFields m.text = some m := by
  have hexpect : ∀ (c : Char) (s : Str), expect c (.ofChar c :: s) = some s :=
    fun c s => expect_eq_some.mpr rfl
  have htwo : ∀ (k : Nat) (s : Str), k < 10 ^ 2 → Tip.digits 2 (pad 2 k ++ s) = some (k, s) :=
    fun k s hk => digits_eq_some.mpr ⟨hk, rfl⟩
  have hfour : Tip.digits 4 m.text = some (m.y, _) :=
    digits_eq_some.mpr ⟨hm.y, by rw [TsFields.text]; simp only [List.append_assoc]; rfl⟩
  rw [tsFields]
  refine Option.bind_eq_some_iff.mpr ⟨_, hfour, ?_⟩
  refine Option.bind_eq_some_iff.mpr ⟨_, hexpect _ _, ?_⟩
  refine Option.bind_eq_some_iff.mpr ⟨(m.mo, _), htwo _ _ hm.mo, ?_⟩
  refine Option.bind_eq_some_iff.mpr ⟨_, hexpect _ _, ?_⟩
  refine Option.bind_eq_some_iff.mpr ⟨(m.d, _), htwo _ _ hm.d, ?_⟩
  refine Option.bind_eq_some_iff.mpr ⟨_, hexpect _ _, ?_⟩
  refine Option.bind_eq_some_iff.mpr ⟨(m.h, _), htwo _ _ hm.h, ?_⟩
  refine Option.bind_eq_some_iff.mpr ⟨_, hexpect _ _, ?_⟩
  refine Option.bind_eq_some_iff.mpr ⟨(m.mi, _), htwo _ _ hm.mi, ?_⟩
  refine Option.bind_eq_some_iff.mpr ⟨_, hexpect _ _, ?_⟩
  refine Option.bind_eq_some_iff.mpr ⟨(m.sec, _), htwo _ _ hm.sec, ?_⟩
  refine Option.bind_eq_some_iff.mpr ⟨(m.frac, m.off), fraction_append hm.off hm.frac, ?_⟩
  dsimp only
  rw [if_pos hm.off]
  rfl

/-!
### Calendar arithmetic
-/

/--
The seconds since 1970 that the calendar counts.
-/
def epochSeconds (y mo d h mi sec : Nat) : Int :=
  ((Gregorian.dayNumber y mo d : Int) - 719162) * 86400 + h * 3600 + mi * 60 + sec

section

variable {y mo d : Nat} (hdate : Gregorian.IsDate y mo d) (h mi sec : Nat)

include hdate

theorem timegm_eq : timegm y mo d h mi sec = epochSeconds y mo d h mi sec := by
  have hyear := Gregorian.daysBeforeYear_eq hdate.1
  have hmonth : ((List.range (mo - 1)).map fun m => daysInMonth y (m + 1)).sum =
      Gregorian.daysBeforeMonth y mo := rfl
  rcases hdate with ⟨hy, -, -, hd, -⟩
  rw [timegm, epochSeconds, Gregorian.dayNumber, hmonth]
  push_cast
  omega

/--
The days before a month by the months before it, as the libraries compute them.
-/
theorem daysBeforeMonth_table
    : (Gregorian.daysBeforeMonth y mo : Int) =
        ((367 * mo - 362) / 12 : Nat) - (if 2 < mo then 2 - Gregorian.leapDay y else 0 : Int) := by
  rcases hdate with ⟨-, hmo, hle, -⟩
  rw [Gregorian.daysBeforeMonth_eq hmo (by omega)]
  interval_cases mo <;> simp [Gregorian.commonDaysBefore]
  all_goals omega

theorem toEpochDay_eq : Java.toEpochDay y mo d = (Gregorian.dayNumber y mo d : Int) - 719162 := by
  have hyear := Gregorian.daysBeforeYear_eq hdate.1
  have hmonth := daysBeforeMonth_table hdate
  rw [Java.toEpochDay, Gregorian.dayNumber]
  rw [show ((y % 4 = 0 && y % 100 ≠ 0) || y % 400 = 0 : Bool) = Gregorian.isLeap y from rfl]
  have hleap := Gregorian.isLeap_iff y
  rw [Gregorian.leapDay] at hmonth
  rcases hdate with ⟨hy, hmo, hle, hd, -⟩
  push_cast at hmonth ⊢
  split at hmonth
  . split at hmonth
    . next h =>
      rw [if_pos h]
      omega
    . next h =>
      rw [if_neg h]
      omega
  . omega

theorem getTime_eq : Js.getTime y mo d h mi sec / 1000 = epochSeconds y mo d h mi sec := by
  have hyear := Gregorian.daysBeforeYear_eq hdate.1
  have hmonth := Gregorian.daysBeforeMonth_eq (y := y) hdate.2.1 (Nat.le_succ_of_le hdate.2.2.1)
  have htable : [0, 31, 59, 90, 120, 151, 181, 212, 243, 273, 304, 334].getD (mo - 1) 0 =
      Gregorian.commonDaysBefore mo := by
    rcases hdate with ⟨-, hmo, hle, -⟩
    interval_cases mo <;> rfl
  rcases hdate with ⟨hy, -, -, hd, -⟩
  have hdays : Js.dayFromYear y = (Gregorian.daysBeforeYear y : Int) - 719162 := by
    rw [Js.dayFromYear]
    omega
  rw [Js.getTime, htable, hdays, epochSeconds, Gregorian.dayNumber, hmonth]
  rw [show ((y % 4 = 0 && y % 100 ≠ 0) || y % 400 = 0 : Bool) = Gregorian.isLeap y from rfl]
  rw [Gregorian.leapDay]
  have hstart : (if 2 < mo && Gregorian.isLeap y then Gregorian.commonDaysBefore mo + 1
        else Gregorian.commonDaysBefore mo : Nat) =
      Gregorian.commonDaysBefore mo + if 2 < mo then if Gregorian.isLeap y then 1 else 0 else 0 := by
    by_cases hmo : 2 < mo <;> cases Gregorian.isLeap y <;> simp [hmo]
  rw [hstart]
  push_cast
  omega

/--
The days of the months from March on, as the package computes them.
-/
theorem ayday_table
    : ((mo + 12 * if mo < 3 then 1 else 0) * 979 - 2919) / 32 + 59 =
        Gregorian.commonDaysBefore mo + if mo < 3 then 365 else 0 := by
  rcases hdate with ⟨-, hmo, hle, -⟩
  interval_cases mo <;> rfl

omit hdate in
/--
The days of whole years from a first of March on, by centuries.
-/
theorem centuries_eq (n k : Nat)
    : 146097 * ((n + 400 * k) / 100) / 4 + 1461 * ((n + 400 * k) % 100) / 4 + n / 100 =
        k * 146097 + 365 * n + n / 4 + n / 400 := by
  have hcentury : (n + 400 * k) / 100 = n / 100 + 4 * k := by omega
  have hyear : (n + 400 * k) % 100 = n % 100 := by omega
  have hcommon : 146097 * (n / 100 + 4 * k) / 4 = 36524 * (n / 100) + n / 100 / 4 + k * 146097 := by
    generalize n / 100 = c
    omega
  have hfour : n / 4 = 25 * (n / 100) + n % 100 / 4 := by omega
  have hleap : 1461 * (n % 100) / 4 = 365 * (n % 100) + n % 100 / 4 := by
    generalize n % 100 = r
    omega
  have hdivMod : n = 100 * (n / 100) + n % 100 := by omega
  rw [hcentury, hyear, hcommon, hleap, Nat.div_div_eq_div_mul]
  omega

omit hdate in
theorem absolute_eq
    : ∃ k : Nat, Go.absoluteYears = 400 * k ∧
        Go.absoluteToInternal = -((k * 146097 + 306) * 86400) := by
  refine ⟨Go.absoluteYears / 400, ?_, rfl⟩
  rw [Go.absoluteYears]

theorem dateToAbsDays_eq {k : Nat} (hk : Go.absoluteYears = 400 * k)
    : Go.dateToAbsDays y mo d = Gregorian.dayNumber y mo d + (k * 146097 + 306) := by
  have hyear := Gregorian.daysBeforeYear_eq hdate.1
  have hmonth := Gregorian.daysBeforeMonth_eq (y := y) hdate.2.1 (Nat.le_succ_of_le hdate.2.2.1)
  have hayday := ayday_table hdate
  have hleap := Gregorian.leapDay_eq y
  rcases hdate with ⟨hy, -, -, hd, -⟩
  rw [Go.dateToAbsDays, Gregorian.dayNumber, hmonth, hk]
  clear hk
  by_cases hmo : mo < 3
  . have hcenturies := centuries_eq (y - 1) k
    have hlate : ¬2 < mo := by omega
    simp only [if_pos hmo, if_neg hlate] at hayday ⊢
    generalize 146097 * ((y - 1 + 400 * k) / 100) / 4 = centurydays at hcenturies ⊢
    generalize 1461 * ((y - 1 + 400 * k) % 100) / 4 = cday at hcenturies ⊢
    generalize ((mo + 12 * 1) * 979 - 2919) / 32 = ayday at hayday ⊢
    clear hleap
    omega
  . have hcenturies := centuries_eq y k
    have hlate : 2 < mo := by omega
    simp only [if_neg hmo, if_pos hlate, Nat.sub_zero] at hayday ⊢
    generalize 146097 * ((y + 400 * k) / 100) / 4 = centurydays at hcenturies ⊢
    generalize 1461 * ((y + 400 * k) % 100) / 4 = cday at hcenturies ⊢
    generalize ((mo + 12 * 0) * 979 - 2919) / 32 = ayday at hayday ⊢
    omega

theorem date_eq (nsec : Nat) (offset : Int)
    : Go.date y mo d h mi sec nsec offset = ⟨epochSeconds y mo d h mi sec - offset, nsec⟩ := by
  rcases absolute_eq with ⟨k, hk, hinternal⟩
  rw [Go.date, dateToAbsDays_eq hdate hk, hinternal, Go.internalToUnix, epochSeconds]
  clear hk hinternal
  simp only [Instant.mk.injEq, and_true]
  push_cast
  omega

end

/-!
### The fraction
-/

theorem natOfText_zeros (s : Str) (n : Nat)
    : Json.natOfText (s ++ List.replicate n 0x30) = Json.natOfText s * 10 ^ n := by
  induction n with
  | zero => simp
  | succ n ih =>
    have hzero : ((0x30 : CodePoint).val - 48 : Nat) = 0 := rfl
    rw [List.replicate_succ', ← List.append_assoc, natOfText_concat, ih, hzero, pow_succ]
    ring

/--
The nanoseconds that digits after the point stand for.
-/
def nanosOf : Option Str → Nat
  | none => 0
  | some f => Json.natOfText f * 10 ^ (9 - f.length)

theorem padded_eq {f : Str} (hlen : f.length ≤ 9)
    : Json.natOfText ((f ++ List.replicate (9 - f.length) 0x30).take 9) =
        Json.natOfText f * 10 ^ (9 - f.length) := by
  rw [List.take_of_length_le (by simp; omega), natOfText_zeros]

theorem padded_eq' {f : Str} (hlen : f.length ≤ 9)
    : Json.natOfText ((f ++ txt "000000000").take 9) = Json.natOfText f * 10 ^ (9 - f.length) := by
  have hzeros : txt "000000000" = List.replicate (9 - f.length) 0x30 ++ List.replicate f.length 0x30 := by
    rw [← List.replicate_add, Nat.sub_add_cancel hlen]
    rfl
  rw [hzeros, ← List.append_assoc, List.take_append_of_le_length (by simp; omega), padded_eq hlen]

theorem nanosOf_lt {frac : Option Str}
    (hfrac : ∀ f, frac = some f → 1 ≤ f.length ∧ f.length ≤ 9 ∧ ∀ c ∈ f, Json.isDigit c = true)
    : nanosOf frac < 10 ^ 9 := by
  cases frac with
  | none => simp [nanosOf]
  | some f =>
    rcases hfrac f rfl with ⟨-, hnine, hall⟩
    have hlt := natOfText_lt hall
    have hpow : 10 ^ f.length * 10 ^ (9 - f.length) = 10 ^ 9 := by
      rw [← pow_add, Nat.add_sub_cancel' hnine]
    rw [nanosOf, ← hpow]
    exact Nat.mul_lt_mul_of_pos_right hlt (by positivity)

theorem fractionValue_eq {frac : Option Str}
    (hfrac : ∀ f, frac = some f → 1 ≤ f.length ∧ f.length ≤ 9 ∧ ∀ c ∈ f, Json.isDigit c = true)
    : Timestamp.fractionValue frac = (nanosOf frac : Rat) / 10 ^ 9 := by
  cases frac with
  | none => simp [Timestamp.fractionValue, nanosOf]
  | some f =>
    rcases hfrac f rfl with ⟨-, hnine, -⟩
    have hpow : (10 : Rat) ^ f.length * 10 ^ (9 - f.length) = 10 ^ 9 := by
      rw [← pow_add, Nat.add_sub_cancel' hnine]
    rw [Timestamp.fractionValue, nanosOf, ← hpow]
    push_cast
    field_simp

/-!
### The readers
-/

namespace TsFields

def InRange (m : TsFields) : Prop :=
  (1 ≤ m.y ∧ m.y ≤ 9999) ∧ (1 ≤ m.mo ∧ m.mo ≤ 12) ∧ m.h ≤ 23 ∧ m.mi ≤ 59 ∧ m.sec ≤ 59

def DayExists (m : TsFields) : Prop := 1 ≤ m.d ∧ m.d ≤ Gregorian.monthLength m.y m.mo

def hours (m : TsFields) : Nat := Json.natOfText ((m.off.drop 1).take 2)

def minutes (m : TsFields) : Nat := Json.natOfText ((m.off.drop 4).take 2)

def OffsetInRange (m : TsFields) : Prop := m.off = txt "Z" ∨ m.hours ≤ 23 ∧ m.minutes ≤ 59

instance (m : TsFields) : Decidable m.InRange := inferInstanceAs (Decidable (_ ∧ _))

instance (m : TsFields) : Decidable m.DayExists := inferInstanceAs (Decidable (_ ∧ _))

instance (m : TsFields) : Decidable m.OffsetInRange := inferInstanceAs (Decidable (_ ∨ _))

def offSeconds (m : TsFields) : Int :=
  if m.off = txt "Z" then 0
  else if m.off.head? = some (.ofChar '-') then -(m.hours * 3600 + m.minutes * 60)
  else m.hours * 3600 + m.minutes * 60

/--
The instant as every reader returns it.
-/
def instant (m : TsFields) : Instant :=
  ⟨epochSeconds m.y m.mo m.d m.h m.mi m.sec - m.offSeconds, nanosOf m.frac⟩

theorem isDate {m : TsFields} (hrange : m.InRange) (hday : m.DayExists)
    : Gregorian.IsDate m.y m.mo m.d :=
  ⟨hrange.1.1, hrange.2.1.1, hrange.2.1.2, hday⟩

end TsFields

/--
What the four readers have in common.
-/
def read : Option TsFields → Except Str Instant
  | none => .error (txt "timestamp outside the profile YYYY-MM-DDThh:mm:ss[.fraction](Z|±hh:mm)")
  | some m =>
    if ¬m.InRange then .error (txt "timestamp field out of range")
    else if ¬m.DayExists then .error (txt "timestamp day does not exist in that month")
    else if ¬m.OffsetInRange then .error (txt "timestamp offset out of range")
    else .ok m.instant

section

variable {m : TsFields}

theorem inRange_iff
    : (!(1 ≤ m.y && m.y ≤ 9999 && 1 ≤ m.mo && m.mo ≤ 12 && m.h ≤ 23 && m.mi ≤ 59 && m.sec ≤ 59)) = true ↔
        ¬m.InRange := by
  simp only [TsFields.InRange, Bool.not_eq_true', Bool.and_eq_false_iff, decide_eq_false_iff_not]
  omega

theorem inRange_iff'
    : (m.y < 1 || 9999 < m.y || m.mo < 1 || 12 < m.mo || 23 < m.h || 59 < m.mi || 59 < m.sec : Bool) =
        true ↔ ¬m.InRange := by
  simp only [TsFields.InRange, Bool.or_eq_true, decide_eq_true_eq]
  omega

theorem offset_iff
    : (m.off ≠ txt "Z" ∧ (23 < Json.natOfText ((m.off.drop 1).take 2) ∨
        59 < Json.natOfText ((m.off.drop 4).take 2))) ↔ ¬m.OffsetInRange := by
  rw [TsFields.OffsetInRange, TsFields.hours, TsFields.minutes, not_or, ne_eq]
  refine and_congr_right fun _ => ?_
  omega

theorem offset_iff'
    : (m.off ≠ txt "Z" ∧ (23 < Json.natOfText ((m.off.drop 1).take 2) ||
        59 < Json.natOfText ((m.off.drop 4).take 2)) = true) ↔ ¬m.OffsetInRange := by
  rw [← offset_iff, Bool.or_eq_true, decide_eq_true_eq, decide_eq_true_eq]

theorem offSeconds_of_sign
    : (if m.off = txt "Z" then 0
        else ((Json.natOfText ((m.off.drop 1).take 2) : Int) * 3600 +
          (Json.natOfText ((m.off.drop 4).take 2) : Int) * 60) *
            (if m.off.head? = some (.ofChar '-') then -1 else 1)) = m.offSeconds := by
  rw [TsFields.offSeconds, TsFields.hours, TsFields.minutes]
  refine if_congr Iff.rfl rfl ?_
  split <;> ring

theorem nanos_of_replicate (hm : m.Shaped)
    : Json.natOfText ((m.frac.getD (txt "0") ++
          List.replicate (9 - (m.frac.getD (txt "0")).length) 0x30).take 9) = nanosOf m.frac := by
  cases h : m.frac with
  | none => rfl
  | some f => exact padded_eq (hm.frac f h).2.1

theorem nanos_of_zeros (hm : m.Shaped)
    : Json.natOfText ((m.frac.getD (txt "0") ++ txt "000000000").take 9) = nanosOf m.frac := by
  cases h : m.frac with
  | none => rfl
  | some f => exact padded_eq' (hm.frac f h).2.1

theorem nanos_of_match (hm : m.Shaped)
    : (match m.frac with
        | none => 0
        | some f => Json.natOfText ((f ++ txt "000000000").take 9)) = nanosOf m.frac := by
  cases h : m.frac with
  | none => rfl
  | some f => exact padded_eq' (hm.frac f h).2.1

end

theorem parseInstant_eq (ts : Str) : parseInstant ts = read (tsFields ts) := by
  rw [parseInstant]
  cases h : tsFields ts with
  | none => rfl
  | some m =>
    have hm := (shaped_of_tsFields h).1
    dsimp only
    rw [read]
    by_cases hrange : m.InRange
    . rw [if_neg (mt inRange_iff.mp (not_not.mpr hrange)), if_neg (not_not.mpr hrange)]
      have hdays : (!(1 ≤ m.d && m.d ≤ daysInMonth m.y m.mo)) = true ↔ ¬m.DayExists := by
        rw [TsFields.DayExists, Bool.not_eq_true', ← Bool.not_eq_true, Bool.and_eq_true,
          decide_eq_true_eq, decide_eq_true_eq]
        rfl
      by_cases hday : m.DayExists
      . rw [if_neg (mt hdays.mp (not_not.mpr hday)), if_neg (not_not.mpr hday)]
        by_cases hoff : m.OffsetInRange
        . rw [if_neg (mt offset_iff.mp (not_not.mpr hoff)), if_neg (not_not.mpr hoff),
            nanos_of_replicate hm, timegm_eq (TsFields.isDate hrange hday)]
          push_cast
          rw [offSeconds_of_sign, TsFields.instant]
        . rw [if_pos (offset_iff.mpr hoff), if_pos hoff]
      . rw [if_pos (hdays.mpr hday), if_pos hday]
    . rw [if_pos (inRange_iff.mpr hrange), if_pos hrange]

/--
The tables of the other languages.
-/
theorem days_iff {y mo d : Nat} (hmo : 1 ≤ mo ∧ mo ≤ 12)
    : (d < 1 || [31, if (y % 4 = 0 && y % 100 ≠ 0) || y % 400 = 0 then 29 else 28, 31, 30, 31, 30, 31,
          31, 30, 31, 30, 31].getD (mo - 1) 0 < d : Bool) = true ↔
        ¬(1 ≤ d ∧ d ≤ Gregorian.monthLength y mo) := by
  have htable : [31, if Gregorian.isLeap y then 29 else 28, 31, 30, 31, 30, 31, 31, 30, 31, 30, 31].getD
      (mo - 1) 0 = Gregorian.monthLength y mo := by
    rcases hmo with ⟨hone, htwelve⟩
    interval_cases mo <;> rfl
  rw [Gregorian.isLeap] at htable
  rw [htable, Bool.or_eq_true, decide_eq_true_eq, decide_eq_true_eq]
  omega

theorem days_iff' {y mo d : Nat} (hmo : 1 ≤ mo ∧ mo ≤ 12)
    : (d < 1 || (if mo = 2 && ((y % 4 = 0 && y % 100 ≠ 0) || y % 400 = 0) then 29
          else [31, 28, 31, 30, 31, 30, 31, 31, 30, 31, 30, 31].getD (mo - 1) 0) < d : Bool) = true ↔
        ¬(1 ≤ d ∧ d ≤ Gregorian.monthLength y mo) := by
  have htable : (if mo = 2 && Gregorian.isLeap y then 29
      else [31, 28, 31, 30, 31, 30, 31, 31, 30, 31, 30, 31].getD (mo - 1) 0) =
        Gregorian.monthLength y mo := by
    rcases hmo with ⟨hone, htwelve⟩
    rw [Gregorian.monthLength]
    cases Gregorian.isLeap y <;> interval_cases mo <;> rfl
  rw [Gregorian.isLeap] at htable
  rw [htable, Bool.or_eq_true, decide_eq_true_eq, decide_eq_true_eq]
  omega

theorem Go.parseInstant_eq (ts : Str) : Go.parseInstant ts = read (tsFields ts) := by
  rw [Go.parseInstant]
  cases h : tsFields ts with
  | none => rfl
  | some m =>
    have hm := (shaped_of_tsFields h).1
    dsimp only
    rw [read]
    by_cases hrange : m.InRange
    . have hdays := days_iff' (y := m.y) (d := m.d) hrange.2.1
      rw [if_neg (mt inRange_iff'.mp (not_not.mpr hrange)), if_neg (not_not.mpr hrange)]
      by_cases hday : m.DayExists
      . rw [if_neg (mt hdays.mp (not_not.mpr hday)), if_neg (not_not.mpr hday)]
        by_cases hoff : m.OffsetInRange
        . rw [if_neg (mt offset_iff'.mp (not_not.mpr hoff)), if_neg (not_not.mpr hoff),
            nanos_of_match hm, date_eq (TsFields.isDate hrange hday)]
          rfl
        . rw [if_pos (offset_iff'.mpr hoff), if_pos hoff]
      . rw [if_pos (hdays.mpr hday), if_pos hday]
    . rw [if_pos (inRange_iff'.mpr hrange), if_pos hrange]

theorem Js.parseInstant_eq (ts : Str) : Js.parseInstant ts = (read (tsFields ts)).toOption := by
  rw [Js.parseInstant]
  cases h : tsFields ts with
  | none => rfl
  | some m =>
    have hm := (shaped_of_tsFields h).1
    dsimp only
    rw [read]
    by_cases hrange : m.InRange
    . have hdays := days_iff (y := m.y) (d := m.d) hrange.2.1
      rw [if_neg (mt inRange_iff'.mp (not_not.mpr hrange)), if_neg (not_not.mpr hrange)]
      by_cases hday : m.DayExists
      . rw [if_neg (mt hdays.mp (not_not.mpr hday)), if_neg (not_not.mpr hday)]
        by_cases hoff : m.OffsetInRange
        . rw [if_neg (mt offset_iff'.mp (not_not.mpr hoff)), if_neg (not_not.mpr hoff),
            nanos_of_zeros hm, getTime_eq (TsFields.isDate hrange hday), offSeconds_of_sign]
          rfl
        . rw [if_pos (offset_iff'.mpr hoff), if_pos hoff]
          rfl
      . rw [if_pos (hdays.mpr hday), if_pos hday]
        rfl
    . rw [if_pos (inRange_iff'.mpr hrange), if_pos hrange]
      rfl

theorem Java.parseInstant_eq (ts : Str) : Java.parseInstant ts = read (tsFields ts) := by
  rw [Java.parseInstant]
  cases h : tsFields ts with
  | none => rfl
  | some m =>
    have hm := (shaped_of_tsFields h).1
    dsimp only
    rw [read]
    by_cases hrange : m.InRange
    . have hdays := days_iff (y := m.y) (d := m.d) hrange.2.1
      rw [if_neg (mt inRange_iff'.mp (not_not.mpr hrange)), if_neg (not_not.mpr hrange)]
      by_cases hday : m.DayExists
      . rw [if_neg (mt hdays.mp (not_not.mpr hday)), if_neg (not_not.mpr hday)]
        by_cases hoff : m.OffsetInRange
        . rw [if_neg (mt offset_iff'.mp (not_not.mpr hoff)), if_neg (not_not.mpr hoff),
            nanos_of_match hm, toEpochDay_eq (TsFields.isDate hrange hday)]
          rfl
        . rw [if_pos (offset_iff'.mpr hoff), if_pos hoff]
      . rw [if_pos (hdays.mpr hday), if_pos hday]
    . rw [if_pos (inRange_iff'.mpr hrange), if_pos hrange]

/-!
### The order of the instants
-/

namespace Zone

theorem inRange_iff {m : TsFields} {z : Zone} (hz : z.Digits) (hoff : m.off = z.text)
    : m.OffsetInRange ↔ z.InRange := by
  rw [TsFields.OffsetInRange, TsFields.hours, TsFields.minutes, hoff]
  cases z with
  | utc => simp [text, InRange]
  | offset negative oh om =>
    rcases read_offset hz with ⟨hz, hoh, hom, -⟩
    rw [hoh, hom, InRange, or_iff_right hz]

theorem offSeconds_eq {m : TsFields} {z : Zone} (hz : z.Digits) (hoff : m.off = z.text)
    : m.offSeconds = z.seconds := by
  rw [TsFields.offSeconds, TsFields.hours, TsFields.minutes, hoff]
  cases z with
  | utc => rfl
  | offset negative oh om =>
    rcases read_offset hz with ⟨hz, hoh, hom, hhead⟩
    rw [hoh, hom, if_neg hz, seconds]
    exact if_congr hhead rfl rfl

end Zone

namespace Timestamp

def fields (t : Timestamp) : TsFields := ⟨t.y, t.mo, t.d, t.h, t.mi, t.sec, t.frac, t.zone.text⟩

theorem shaped_fields (t : Timestamp) : t.fields.Shaped := by
  rcases t.date with ⟨⟨hy, hmo, hle, hd, hlast⟩, hmax⟩
  rcases t.time with ⟨hh, hmi, hsec⟩
  have hmonth : Gregorian.monthLength t.y t.mo ≤ 31 := by
    rw [Gregorian.monthLength]
    repeat' split
    all_goals omega
  constructor
  case frac => exact t.digits
  case off => exact Zone.isOffset_iff.mpr ⟨t.zone, t.inRange.digits, rfl⟩
  all_goals simp only [fields]; omega

theorem tsFields_text (t : Timestamp) : tsFields t.text = some t.fields := by
  have htext : t.text = t.fields.text := by
    rw [text, TsFields.text]
    simp only [fields]
  rw [htext, Tip.tsFields_text t.shaped_fields]

theorem read_text (t : Timestamp) : read (tsFields t.text) = .ok t.fields.instant := by
  rcases t.date with ⟨⟨hy, hmo, hle, hday⟩, hmax⟩
  have hrange : t.fields.InRange := ⟨⟨hy, hmax⟩, ⟨hmo, hle⟩, t.time⟩
  have hday : t.fields.DayExists := hday
  have hoff : t.fields.OffsetInRange := (Zone.inRange_iff t.inRange.digits rfl).mpr t.inRange
  rw [t.tsFields_text, read, if_neg (not_not.mpr hrange), if_neg (not_not.mpr hday),
    if_neg (not_not.mpr hoff)]

theorem exists_of_read {ts : Str} {p : Instant} (h : read (tsFields ts) = .ok p)
    : ∃ t : Timestamp, t.text = ts := by
  cases hfields : tsFields ts with
  | none =>
    rw [hfields] at h
    cases h
  | some m =>
    rcases shaped_of_tsFields hfields with ⟨hm, rfl⟩
    rcases Zone.isOffset_iff.mp hm.off with ⟨z, hz, hoff⟩
    rw [hfields, read] at h
    by_cases hrange : m.InRange
    . rw [if_neg (not_not.mpr hrange)] at h
      by_cases hday : m.DayExists
      . rw [if_neg (not_not.mpr hday)] at h
        by_cases hzone : m.OffsetInRange
        . refine ⟨⟨m.y, m.mo, m.d, m.h, m.mi, m.sec, m.frac, z,
            ⟨TsFields.isDate hrange hday, hrange.1.2⟩, hrange.2.2, hm.frac,
            (Zone.inRange_iff hz hoff).mp hzone⟩, ?_⟩
          rw [text, TsFields.text, hoff]
        . rw [if_pos hzone] at h
          cases h
      . rw [if_pos hday] at h
        cases h
    . rw [if_pos hrange] at h
      cases h

/--
The pair is the time in UTC, and its second part less than a second.
-/
theorem utc_eq (t : Timestamp)
    : t.utc = t.fields.instant.seconds + (t.fields.instant.nanos : Rat) / 10 ^ 9 := by
  have hzone : t.fields.offSeconds = t.zone.seconds := Zone.offSeconds_eq t.inRange.digits rfl
  rw [utc, fractionValue_eq t.digits, Gregorian.dayNumber_1970, TsFields.instant, hzone, epochSeconds]
  simp only [fields]
  push_cast
  ring

theorem nanos_lt (t : Timestamp) : t.fields.instant.nanos < 10 ^ 9 := nanosOf_lt t.digits

end Timestamp

/--
The instant in nanoseconds.
-/
def Instant.total (p : Instant) : Int := p.seconds * 10 ^ 9 + p.nanos

theorem Instant.lt_iff {p q : Instant} (hp : p.nanos < 10 ^ 9) (hq : q.nanos < 10 ^ 9)
    : p.lt q = true ↔ p.total < q.total := by
  rw [lt, total, total, Bool.or_eq_true, Bool.and_eq_true, decide_eq_true_eq, decide_eq_true_eq,
    decide_eq_true_eq]
  omega

theorem Instant.eq_iff {p q : Instant} (hp : p.nanos < 10 ^ 9) (hq : q.nanos < 10 ^ 9)
    : p = q ↔ p.total = q.total := by
  cases p
  cases q
  rw [total, total, Instant.mk.injEq]
  dsimp only at hp hq ⊢
  omega

theorem Timestamp.total_eq (t : Timestamp) : (t.fields.instant.total : Rat) = t.utc * 10 ^ 9 := by
  rw [utc_eq, Instant.total, add_mul, div_mul_cancel₀ _ (by norm_num)]
  push_cast
  rfl

/--
A reader of timestamps with its comparison: the texts that it accepts are those of the profile, and
it orders them as the instants in UTC that they stand for.
-/
def Faithful (parse : Str → Option Instant) (before : Instant → Instant → Bool) : Prop :=
  (∀ ts, (parse ts).isSome = true ↔ ∃ t : Timestamp, t.text = ts) ∧
    ∀ a b : Timestamp, ∃ p q, parse a.text = some p ∧ parse b.text = some q ∧
      (before p q = true ↔ a.utc < b.utc) ∧ (p = q ↔ a.utc = b.utc)

theorem faithful_of_read {parse : Str → Option Instant} {before : Instant → Instant → Bool}
    (hparse : ∀ ts, parse ts = (read (tsFields ts)).toOption)
    (hbefore : ∀ p q, before p q = Instant.lt p q) : Faithful parse before := by
  constructor
  . intro ts
    rw [hparse]
    constructor
    . intro h
      cases hread : read (tsFields ts) with
      | error e =>
        rw [hread] at h
        cases h
      | ok p => exact Timestamp.exists_of_read hread
    . rintro ⟨t, rfl⟩
      rw [t.read_text]
      rfl
  . intro a b
    refine ⟨a.fields.instant, b.fields.instant, by rw [hparse, a.read_text]; rfl,
      by rw [hparse, b.read_text]; rfl, ?_, ?_⟩
    . rw [hbefore, Instant.lt_iff a.nanos_lt b.nanos_lt, ← Int.cast_lt (R := Rat), a.total_eq,
        b.total_eq]
      exact mul_lt_mul_iff_left₀ (by norm_num)
    . rw [Instant.eq_iff a.nanos_lt b.nanos_lt, ← Int.cast_inj (α := Rat), a.total_eq, b.total_eq]
      exact mul_left_inj' (by norm_num)

theorem parseInstant_faithful
    : Faithful (fun ts => (parseInstant ts).toOption) Instant.lt ∧
        Faithful (fun ts => (Go.parseInstant ts).toOption) Go.before ∧
        Faithful Js.parseInstant Js.instantBefore ∧
        Faithful (fun ts => (Java.parseInstant ts).toOption) Java.before := by
  refine ⟨faithful_of_read (fun ts => ?_) fun _ _ => rfl, faithful_of_read (fun ts => ?_) fun _ _ => rfl,
    faithful_of_read Js.parseInstant_eq fun _ _ => rfl, faithful_of_read (fun ts => ?_) fun _ _ => rfl⟩
  . rw [parseInstant_eq]
  . rw [Go.parseInstant_eq]
  . rw [Java.parseInstant_eq]

example : parseInstant (txt "2026-09-15T10:00:00.0001Z") = .ok ⟨1789466400, 100000⟩ := by
  decide +kernel

end Tip
end CryptoValid
