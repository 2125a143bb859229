import CryptoValid.Lib.Fractions
import CryptoValid.Tip.Instants
import Mathlib.Data.Prod.Lex

/-!
This module contains the timestamps of `cryptovalid_acta.py`, the moments of UTC that they stand for,
and the validity window of a key.
-/

namespace CryptoValid
namespace Acta

open Tip (digits expect pad timegm digits_eq_some expect_eq_some)

/--
The groups of `_INSTANT_RE`.
-/
structure InstantFields where
  y : Nat
  mo : Nat
  d : Nat
  h : Nat
  mi : Nat
  se : Nat
  frac : Option Str
  zone : Tip.Zone

/--
`(\.[0-9]+)?`
-/
def fraction? (s : Str) : Option (Option Str × Str) :=
  match expect '.' s with
  | none => some (none, s)
  | some s =>
    let f := s.takeWhile Json.isDigit
    if f.isEmpty then none else some (some f, s.dropWhile Json.isDigit)

/--
`(?:[Zz]|([+-])([0-9]{2}):([0-9]{2}))\Z`
-/
def zone? : Str → Option Tip.Zone
  | [] => none
  | c :: s =>
    if c = .ofChar 'Z' ∨ c = .ofChar 'z' then
      if s = [] then some .utc else none
    else if c = .ofChar '+' ∨ c = .ofChar '-' then do
      let (oh, s) ← digits 2 s
      let (om, s) ← digits 2 (← expect ':' s)
      if s = [] then some (.offset (c = .ofChar '-') oh om) else none
    else
      none

def letterT : Str → Option Str
  | [] => none
  | c :: s => if c = .ofChar 'T' ∨ c = .ofChar 't' then some s else none

def instantRe (t : Str) : Option InstantFields := do
  let (y, s) ← digits 4 t
  let (mo, s) ← digits 2 (← expect '-' s)
  let (d, s) ← digits 2 (← expect '-' s)
  let (h, s) ← digits 2 (← letterT s)
  let (mi, s) ← digits 2 (← expect ':' s)
  let (se, s) ← digits 2 (← expect ':' s)
  let (frac, s) ← fraction? s
  let zone ← zone? s
  return { y, mo, d, h, mi, se, frac, zone }

/--
The minutes that a clock of the zone is ahead of UTC.
-/
def zoneMinutes : Tip.Zone → Int
  | .utc => 0
  | .offset negative oh om => if negative then -(oh * 60 + om) else oh * 60 + om

/--
An aware `datetime` without its microseconds, which only stand for the fraction once it is rounded.
-/
structure Datetime where
  y : Nat
  mo : Nat
  d : Nat
  h : Nat
  mi : Nat
  s : Nat
  offset : Int

/--
The constructor raises `ValueError` for anything but a time of the calendar.
-/
def datetime? (y mo d h mi s : Nat) (offset : Int) : Option Datetime :=
  if (1 ≤ y ∧ y ≤ 9999) ∧ (1 ≤ mo ∧ mo ≤ 12) ∧ (1 ≤ d ∧ d ≤ Gregorian.monthLength y mo) ∧
      h ≤ 23 ∧ mi ≤ 59 ∧ s ≤ 59 then
    some { y, mo, d, h, mi, s, offset }
  else
    none

/--
The part of `_instant` after the match.
-/
def instantOf (m : InstantFields) : Option Datetime :=
  if 60 < m.se then none
  else if m.se = 60 ∧ (m.h * 60 + m.mi - zoneMinutes m.zone) % 1440 ≠ 23 * 60 + 59 then none
  else
    match m.zone with
    | .utc => datetime? m.y m.mo m.d m.h m.mi (if m.se = 60 then 59 else m.se) 0
    | .offset _ oh om =>
      if 23 < oh ∨ 59 < om then none
      else
        datetime? m.y m.mo m.d m.h m.mi (if m.se = 60 then 59 else m.se) (zoneMinutes m.zone)

def instant : Json → Option Datetime
  | .str t => (instantRe t).bind instantOf
  | _ => none

/--
Whole UTC second, leap flag, and the digits of the fraction.
-/
@[ext]
structure Key where
  whole : Int
  leap : Nat
  frac : Str
  deriving DecidableEq

/--
The order of tuples.
-/
def Key.lt (a b : Key) : Bool :=
  a.whole < b.whole ∨ a.whole = b.whole ∧ (a.leap < b.leap ∨ a.leap = b.leap ∧ a.frac < b.frac)

def instantExact : Json → Option Key
  | .str t => do
    let d ← instant (.str t)
    let m ← instantRe t
    return {
      whole := timegm d.y d.mo d.d d.h d.mi d.s - d.offset * 60
      leap := if m.se = 60 then 1 else 0
      frac := Json.trimZeros (m.frac.getD []) }
  | _ => none

/--
The kind and the reason, if there is one.
-/
def outsideWindow (issuedAt entry : Json) : Option (Str × Str) :=
  match entry with
  | .obj members =>
    let vf := (Assoc.lookup (txt "valid_from") members).getD .null
    let vu := (Assoc.lookup (txt "valid_until") members).getD .null
    if vf = .null ∧ vu = .null then none
    else
      let a := instantExact vf
      let b := instantExact vu
      match instantExact issuedAt with
      | none =>
        some (txt "instant", txt "issued_at cannot be compared with the key validity window (§9.2)")
      | some t =>
        if a.any fun a => t.lt a then
          some (txt "outside", txt "issued_at precedes the key validity window (§9.2)")
        else if b.any fun b => !t.lt b then
          some (txt "outside", txt "issued_at is at or after the key validity window ends (§9.2)")
        else if vf ≠ .null ∧ a.isNone then
          some (txt "bound", txt "the relying party's key valid_from is not an RFC 3339 instant (§9.2)")
        else if vu ≠ .null ∧ b.isNone then
          some (txt "bound", txt "the relying party's key valid_until is not an RFC 3339 instant (§9.2)")
        else none
  | _ => none

/-!
### Moments of UTC
-/

/--
A minute since 1970-01-01, and the seconds that have passed in it. Only the last minute of a day may
have a second more.
-/
structure Utc where
  minute : ℤ
  seconds : ℚ
  nonneg : 0 ≤ seconds
  lt_of_leap : seconds < 61
  leap : 60 ≤ seconds → minute % 1440 = 1439

namespace Utc

@[ext]
theorem ext {u v : Utc} (hminute : u.minute = v.minute) (hseconds : u.seconds = v.seconds)
    : u = v := by
  cases u
  cases v
  simp_all

instance : LinearOrder Utc :=
  LinearOrder.lift' (fun u => toLex (u.minute, u.seconds)) fun u v h => by
    have h := toLex.injective h
    rw [Prod.mk.injEq] at h
    exact Utc.ext h.1 h.2

theorem lt_iff {u v : Utc}
    : u < v ↔ u.minute < v.minute ∨ u.minute = v.minute ∧ u.seconds < v.seconds :=
  Prod.Lex.toLex_lt_toLex

end Utc

namespace InstantFields

def minute (m : InstantFields) : ℤ :=
  ((Gregorian.dayNumber m.y m.mo m.d : ℤ) - Gregorian.dayNumber 1970 1 1) * 1440 + m.h * 60 + m.mi -
    zoneMinutes m.zone

def seconds (m : InstantFields) : ℚ := m.se + Json.fractionValue (m.frac.getD [])

/--
A leap second is mapped to the second before it.
-/
def second (m : InstantFields) : Nat := if m.se = 60 then 59 else m.se

/--
What the regular expression leaves to the checks that follow.
-/
structure Shaped (m : InstantFields) : Prop where
  y : m.y < 10 ^ 4
  mo : m.mo < 10 ^ 2
  d : m.d < 10 ^ 2
  h : m.h < 10 ^ 2
  mi : m.mi < 10 ^ 2
  se : m.se < 10 ^ 2
  frac : ∀ f, m.frac = some f → f ≠ [] ∧ ∀ c ∈ f, Json.isDigit c = true
  zone : m.zone.Digits

/--
The text of a zone, with a letter of either case.
-/
def zoneText (letterZ : CodePoint) : Tip.Zone → Str
  | .utc => [letterZ]
  | .offset negative oh om => (Tip.Zone.offset negative oh om).text

def text (letterT letterZ : CodePoint) (m : InstantFields) : Str :=
  pad 4 m.y ++ .ofChar '-' :: pad 2 m.mo ++ .ofChar '-' :: pad 2 m.d ++ letterT :: pad 2 m.h ++
    .ofChar ':' :: pad 2 m.mi ++ .ofChar ':' :: pad 2 m.se ++ Tip.Timestamp.fraction m.frac ++
    zoneText letterZ m.zone

/--
The text is one of the spellings of the fields.
-/
def Written (m : InstantFields) (t : Str) : Prop :=
  ∃ letterT ∈ txt "Tt", ∃ letterZ ∈ txt "Zz", t = m.text letterT letterZ

end InstantFields

/--
A date and time of RFC 3339: a time of the calendar with a fraction of any length, where a leap
second is the last one of a day in UTC.
-/
structure DateTime extends InstantFields where
  date : Gregorian.IsDate y mo d ∧ y ≤ 9999
  time : h ≤ 23 ∧ mi ≤ 59 ∧ se ≤ 60
  digits : ∀ f, frac = some f → f ≠ [] ∧ ∀ c ∈ f, Json.isDigit c = true
  inRange : zone.InRange
  leap : se = 60 → toInstantFields.minute % 1440 = 1439

namespace DateTime

theorem isDigit_frac (t : DateTime) : ∀ c ∈ t.frac.getD [], Json.isDigit c = true := by
  cases hfrac : t.frac with
  | none => simp
  | some f => exact (t.digits f hfrac).2

def utc (t : DateTime) : Utc where
  minute := t.minute
  seconds := t.seconds
  nonneg := by
    have := Json.fractionValue_nonneg (t.frac.getD [])
    rw [InstantFields.seconds]
    positivity
  lt_of_leap := by
    have hfrac := Json.fractionValue_lt_one t.isDigit_frac
    have hse : (t.se : ℚ) ≤ 60 := by exact_mod_cast t.time.2.2
    rw [InstantFields.seconds]
    linarith
  leap := by
    intro hle
    have hfrac := Json.fractionValue_lt_one t.isDigit_frac
    rw [InstantFields.seconds] at hle
    have hse : (59 : ℚ) < t.se := by linarith
    have hse : 59 < t.se := by exact_mod_cast hse
    have := t.time.2.2
    exact t.leap (by omega)

/--
The key of the moment.
-/
def key (t : DateTime) : Key where
  whole := t.minute * 60 + t.second
  leap := if t.se = 60 then 1 else 0
  frac := Json.trimZeros (t.frac.getD [])

end DateTime

/-!
### The regular expression
-/

theorem mem_txt {a b : Char} {c : CodePoint}
    : c ∈ [CodePoint.ofChar a, CodePoint.ofChar b] ↔ c = .ofChar a ∨ c = .ofChar b := by
  simp

theorem letterT_eq_some {s rest : Str}
    : letterT s = some rest ↔ ∃ c ∈ txt "Tt", s = c :: rest := by
  rw [show txt "Tt" = [.ofChar 'T', .ofChar 't'] from rfl]
  cases s with
  | nil => simp [letterT]
  | cons c s =>
    rw [letterT]
    split
    . next h =>
      rw [Option.some.injEq]
      constructor
      . rintro rfl
        exact ⟨c, mem_txt.mpr h, rfl⟩
      . rintro ⟨d, _, heq⟩
        exact (List.cons.inj heq).2
    . next h =>
      constructor
      . rintro ⟨⟩
      . rintro ⟨d, hd, heq⟩
        rw [List.cons.injEq] at heq
        exact absurd (mem_txt.mp (heq.1 ▸ hd)) h

theorem fraction?_eq_some {s rest : Str} {frac : Option Str}
    (h : fraction? s = some (frac, rest))
    : s = Tip.Timestamp.fraction frac ++ rest ∧
        ∀ f, frac = some f → f ≠ [] ∧ ∀ c ∈ f, Json.isDigit c = true := by
  rw [fraction?] at h
  split at h
  . rw [Option.some.injEq, Prod.mk.injEq] at h
    rw [← h.1, ← h.2]
    exact ⟨rfl, fun f hf => by cases hf⟩
  . next s' hexpect =>
    dsimp only at h
    split at h
    . cases h
    . next hne =>
      rw [Option.some.injEq, Prod.mk.injEq] at h
      rw [← h.1, ← h.2, expect_eq_some.mp hexpect]
      constructor
      . simp [Tip.Timestamp.fraction, List.takeWhile_append_dropWhile]
      . intro f hf
        rw [← Option.some.inj hf]
        exact ⟨by simpa using hne, fun c hc => List.mem_takeWhile_imp hc⟩

theorem fraction?_append {frac : Option Str} {c : CodePoint} {rest : Str}
    (hdigit : Json.isDigit c = false) (hpoint : c ≠ .ofChar '.')
    (hfrac : ∀ f, frac = some f → f ≠ [] ∧ ∀ c ∈ f, Json.isDigit c = true)
    : fraction? (Tip.Timestamp.fraction frac ++ c :: rest) = some (frac, c :: rest) := by
  cases frac with
  | none => rw [Tip.Timestamp.fraction, List.nil_append, fraction?, expect, if_neg hpoint]
  | some f =>
    rcases hfrac f rfl with ⟨hne, hall⟩
    have hexpect : expect '.' (Tip.Timestamp.fraction (some f) ++ c :: rest)
        = some (f ++ c :: rest) := rfl
    have htake : (f ++ c :: rest).takeWhile Json.isDigit = f := by
      rw [List.takeWhile_append_of_pos hall, List.takeWhile_cons, hdigit]
      simp
    have hdrop : (f ++ c :: rest).dropWhile Json.isDigit = c :: rest := by
      rw [List.dropWhile_append_of_pos hall, List.dropWhile_cons, hdigit]
      simp
    rw [fraction?, hexpect]
    simp only [htake, hdrop]
    rw [if_neg (by simpa using hne)]

theorem zoneText_offset (c : CodePoint) (negative : Bool) (oh om : Nat)
    : InstantFields.zoneText c (.offset negative oh om)
        = .ofChar (if negative then '-' else '+') :: (pad 2 oh ++ .ofChar ':' :: pad 2 om) := by
  cases negative with
  | true => simp [InstantFields.zoneText, Tip.Zone.text, txt]
  | false => simp [InstantFields.zoneText, Tip.Zone.text, txt]

theorem zone?_eq_some {s : Str} {z : Tip.Zone}
    : zone? s = some z ↔ z.Digits ∧ ∃ c ∈ txt "Zz", s = InstantFields.zoneText c z := by
  rw [show txt "Zz" = [.ofChar 'Z', .ofChar 'z'] from rfl]
  constructor
  . intro h
    cases s with
    | nil => cases h
    | cons c s =>
      rw [zone?] at h
      split at h
      . next hc =>
        split at h
        . next hnil =>
          rw [← Option.some.inj h, hnil]
          exact ⟨trivial, c, mem_txt.mpr hc, rfl⟩
        . cases h
      . split at h
        . next hc =>
          rcases Option.bind_eq_some_iff.mp h with ⟨⟨oh, s1⟩, h1, h⟩
          rcases Option.bind_eq_some_iff.mp h with ⟨s2, h2, h⟩
          rcases Option.bind_eq_some_iff.mp h with ⟨⟨om, s3⟩, h3, h⟩
          rw [digits_eq_some] at h1 h3
          rw [expect_eq_some] at h2
          dsimp only at h
          split at h
          . next hnil =>
            rw [← Option.some.inj h]
            refine ⟨⟨h1.1, h3.1⟩, .ofChar 'Z', by simp, ?_⟩
            rw [h1.2, h2, h3.2, hnil, zoneText_offset, List.append_nil]
            rcases hc with rfl | rfl
            . rfl
            . rfl
          . cases h
        . cases h
  . rintro ⟨hdigits, c, hc, rfl⟩
    cases z with
    | utc => rw [InstantFields.zoneText, zone?, if_pos (mem_txt.mp hc), if_pos rfl]
    | offset negative oh om =>
      have hoh (s : Str) : digits 2 (pad 2 oh ++ s) = some (oh, s) :=
        digits_eq_some.mpr ⟨hdigits.1, rfl⟩
      have hom : digits 2 (pad 2 om) = some (om, []) :=
        digits_eq_some.mpr ⟨hdigits.2, (List.append_nil _).symm⟩
      have hexpect (s : Str) : expect ':' (.ofChar ':' :: s) = some s := expect_eq_some.mpr rfl
      rw [zoneText_offset]
      cases negative with
      | true =>
        rw [zone?, if_neg (by decide), if_pos (by decide)]
        simp [hoh, hom, hexpect]
      | false =>
        rw [zone?, if_neg (by decide), if_pos (by decide)]
        simp only [Bool.false_eq_true, ↓reduceIte, Option.bind_eq_bind, hoh, Option.bind_some,
          hexpect, hom]
        rfl

theorem zoneText_eq_cons {c : CodePoint} (hc : c ∈ txt "Zz") (z : Tip.Zone)
    : ∃ d rest, InstantFields.zoneText c z = d :: rest ∧ Json.isDigit d = false ∧
        d ≠ .ofChar '.' := by
  cases z with
  | utc =>
    refine ⟨c, [], rfl, ?_⟩
    rcases mem_txt.mp hc with rfl | rfl
    . decide
    . decide
  | offset negative oh om =>
    rw [zoneText_offset]
    refine ⟨_, _, rfl, ?_⟩
    cases negative with
    | true => decide
    | false => decide

/--
The expression matches the spellings of fields of the right sizes.
-/
theorem instantRe_eq_some {t : Str} {m : InstantFields}
    : instantRe t = some m ↔ m.Shaped ∧ m.Written t := by
  constructor
  . intro h
    rw [instantRe] at h
    rcases Option.bind_eq_some_iff.mp h with ⟨⟨y, s1⟩, h1, h⟩
    rcases Option.bind_eq_some_iff.mp h with ⟨s2, h2, h⟩
    rcases Option.bind_eq_some_iff.mp h with ⟨⟨mo, s3⟩, h3, h⟩
    rcases Option.bind_eq_some_iff.mp h with ⟨s4, h4, h⟩
    rcases Option.bind_eq_some_iff.mp h with ⟨⟨d, s5⟩, h5, h⟩
    rcases Option.bind_eq_some_iff.mp h with ⟨s6, h6, h⟩
    rcases Option.bind_eq_some_iff.mp h with ⟨⟨hr, s7⟩, h7, h⟩
    rcases Option.bind_eq_some_iff.mp h with ⟨s8, h8, h⟩
    rcases Option.bind_eq_some_iff.mp h with ⟨⟨mi, s9⟩, h9, h⟩
    rcases Option.bind_eq_some_iff.mp h with ⟨s10, h10, h⟩
    rcases Option.bind_eq_some_iff.mp h with ⟨⟨se, s11⟩, h11, h⟩
    rcases Option.bind_eq_some_iff.mp h with ⟨⟨frac, s12⟩, h12, h⟩
    rcases Option.bind_eq_some_iff.mp h with ⟨zone, h13, h⟩
    rw [digits_eq_some] at h1 h3 h5 h7 h9 h11
    rw [expect_eq_some] at h2 h4 h8 h10
    rcases letterT_eq_some.mp h6 with ⟨letterT, hT, h6⟩
    rcases fraction?_eq_some h12 with ⟨h12, hdigits⟩
    rcases zone?_eq_some.mp h13 with ⟨hzone, letterZ, hZ, h13⟩
    rw [← Option.some.inj h]
    refine ⟨⟨h1.1, h3.1, h5.1, h7.1, h9.1, h11.1, hdigits, hzone⟩, letterT, hT, letterZ, hZ, ?_⟩
    rw [h1.2, h2, h3.2, h4, h5.2, h6, h7.2, h8, h9.2, h10, h11.2, h12, h13]
    simp only [InstantFields.text, List.append_assoc, List.cons_append]
  . rintro ⟨hm, letterT, hT, letterZ, hZ, rfl⟩
    have hexpect : ∀ (c : Char) (s : Str), expect c (.ofChar c :: s) = some s :=
      fun c s => expect_eq_some.mpr rfl
    have htwo : ∀ (k : Nat) (s : Str), k < 10 ^ 2 → digits 2 (pad 2 k ++ s) = some (k, s) :=
      fun k s hk => digits_eq_some.mpr ⟨hk, rfl⟩
    have hfour : digits 4 (m.text letterT letterZ) = some (m.y, _) :=
      digits_eq_some.mpr ⟨hm.y, by rw [InstantFields.text]; simp only [List.append_assoc]; rfl⟩
    rcases zoneText_eq_cons hZ m.zone with ⟨c, rest, htext, hdigit, hpoint⟩
    rw [instantRe]
    refine Option.bind_eq_some_iff.mpr ⟨_, hfour, ?_⟩
    refine Option.bind_eq_some_iff.mpr ⟨_, hexpect _ _, ?_⟩
    refine Option.bind_eq_some_iff.mpr ⟨(m.mo, _), htwo _ _ hm.mo, ?_⟩
    refine Option.bind_eq_some_iff.mpr ⟨_, hexpect _ _, ?_⟩
    refine Option.bind_eq_some_iff.mpr ⟨(m.d, _), htwo _ _ hm.d, ?_⟩
    refine Option.bind_eq_some_iff.mpr ⟨_, letterT_eq_some.mpr ⟨letterT, hT, rfl⟩, ?_⟩
    refine Option.bind_eq_some_iff.mpr ⟨(m.h, _), htwo _ _ hm.h, ?_⟩
    refine Option.bind_eq_some_iff.mpr ⟨_, hexpect _ _, ?_⟩
    refine Option.bind_eq_some_iff.mpr ⟨(m.mi, _), htwo _ _ hm.mi, ?_⟩
    refine Option.bind_eq_some_iff.mpr ⟨_, hexpect _ _, ?_⟩
    refine Option.bind_eq_some_iff.mpr ⟨(m.se, _), htwo _ _ hm.se, ?_⟩
    dsimp only
    rw [htext]
    refine Option.bind_eq_some_iff.mpr ⟨_, fraction?_append hdigit hpoint hm.frac, ?_⟩
    dsimp only
    rw [← htext]
    refine Option.bind_eq_some_iff.mpr ⟨_, zone?_eq_some.mpr ⟨hm.zone, letterZ, hZ, rfl⟩, ?_⟩
    rfl

/-!
### The accepted texts
-/

namespace InstantFields

/--
What `_instant` asks of a match.
-/
structure Valid (m : InstantFields) : Prop where
  date : Gregorian.IsDate m.y m.mo m.d ∧ m.y ≤ 9999
  time : m.h ≤ 23 ∧ m.mi ≤ 59 ∧ m.se ≤ 60
  inRange : m.zone.InRange
  leap : m.se = 60 → (m.h * 60 + m.mi - zoneMinutes m.zone) % 1440 = 1439

theorem minute_emod (m : InstantFields)
    : m.minute % 1440 = (m.h * 60 + m.mi - zoneMinutes m.zone) % 1440 := by
  rw [minute]
  omega

end InstantFields

theorem datetime?_eq_some {y mo d h mi s : Nat} {offset : Int} {dt : Datetime}
    : datetime? y mo d h mi s offset = some dt ↔
        ((Gregorian.IsDate y mo d ∧ y ≤ 9999) ∧ h ≤ 23 ∧ mi ≤ 59 ∧ s ≤ 59) ∧
          dt = { y, mo, d, h, mi, s, offset } := by
  rw [datetime?, Gregorian.IsDate]
  split
  . next hok =>
    rw [Option.some.injEq]
    constructor
    . rintro rfl
      exact ⟨⟨⟨⟨hok.1.1, hok.2.1.1, hok.2.1.2, hok.2.2.1⟩, hok.1.2⟩, hok.2.2.2⟩, rfl⟩
    . exact fun h => h.2.symm
  . next hbad =>
    constructor
    . rintro ⟨⟩
    . rintro ⟨⟨⟨⟨hy, hmo, hmo', hd⟩, hy'⟩, htime⟩, _⟩
      exact absurd ⟨⟨hy, hy'⟩, ⟨hmo, hmo'⟩, hd, htime⟩ hbad

theorem instantOf_eq_some {m : InstantFields} {dt : Datetime}
    : instantOf m = some dt ↔
        m.Valid ∧ dt = { m with s := m.second, offset := zoneMinutes m.zone } := by
  have hsecond : m.se ≤ 60 → m.second ≤ 59 := by
    rw [InstantFields.second]
    split <;> omega
  rw [instantOf]
  split
  . next hlarge =>
    constructor
    . rintro ⟨⟩
    . rintro ⟨h, _⟩
      have := h.time
      omega
  . next hse =>
    split
    . next hleap =>
      constructor
      . rintro ⟨⟩
      . exact fun ⟨h, _⟩ => absurd (h.leap hleap.1) hleap.2
    . next hleap =>
      have hleap : m.se = 60 → (m.h * 60 + m.mi - zoneMinutes m.zone) % 1440 = 1439 :=
        fun heq => not_not.mp fun hne => hleap ⟨heq, hne⟩
      rw [← InstantFields.second]
      split
      . next hzone =>
        rw [datetime?_eq_some]
        constructor
        . rintro ⟨⟨hdate, hh, hmi, _⟩, rfl⟩
          exact ⟨⟨hdate, ⟨hh, hmi, by omega⟩, by rw [hzone]; trivial, hleap⟩, by rw [hzone]; rfl⟩
        . rintro ⟨h, rfl⟩
          exact ⟨⟨h.date, h.time.1, h.time.2.1, hsecond h.time.2.2⟩, by rw [hzone]; rfl⟩
      . next negative oh om hzone =>
        split
        . next hrange =>
          constructor
          . rintro ⟨⟩
          . rintro ⟨h, _⟩
            have hin := h.inRange
            rw [hzone] at hin
            have := hin.1
            have := hin.2
            omega
        . next hrange =>
          rw [datetime?_eq_some]
          constructor
          . rintro ⟨⟨hdate, hh, hmi, _⟩, rfl⟩
            refine ⟨⟨hdate, ⟨hh, hmi, by omega⟩, ?_, hleap⟩, rfl⟩
            rw [hzone]
            exact ⟨by omega, by omega⟩
          . rintro ⟨h, rfl⟩
            exact ⟨⟨h.date, h.time.1, h.time.2.1, hsecond h.time.2.2⟩, rfl⟩

namespace DateTime

theorem valid (t : DateTime) : t.toInstantFields.Valid :=
  ⟨t.date, t.time, t.inRange, fun hse => by
    rw [← InstantFields.minute_emod]
    exact t.leap hse⟩

theorem shaped (t : DateTime) : t.toInstantFields.Shaped := by
  rcases t.date with ⟨⟨hy, hmo, hle, hd, hlast⟩, hmax⟩
  rcases t.time with ⟨hh, hmi, hse⟩
  have hmonth : Gregorian.monthLength t.y t.mo ≤ 31 := by
    rw [Gregorian.monthLength]
    repeat' split
    all_goals omega
  constructor
  case frac => exact t.digits
  case zone => exact t.inRange.digits
  all_goals omega

end DateTime

/--
The accepted texts are the spellings of dates and times, and the key is that of the moment.
-/
theorem instantExact_eq_some {t : Str} {k : Key}
    : instantExact (.str t) = some k ↔ ∃ dt : DateTime, dt.Written t ∧ k = dt.key := by
  have hkey : ∀ m : InstantFields, m.Valid →
      timegm m.y m.mo m.d m.h m.mi m.second - zoneMinutes m.zone * 60
        = m.minute * 60 + m.second := by
    intro m h
    rw [Tip.timegm_eq h.date.1, Tip.epochSeconds, InstantFields.minute, Gregorian.dayNumber_1970]
    push_cast
    ring
  constructor
  . intro h
    rcases Option.bind_eq_some_iff.mp h with ⟨d, hd, h⟩
    rcases Option.bind_eq_some_iff.mp h with ⟨m, hm, h⟩
    rcases Option.bind_eq_some_iff.mp hd with ⟨m', hm', hd⟩
    rw [hm, Option.some.injEq] at hm'
    subst hm'
    rcases instantRe_eq_some.mp hm with ⟨hshaped, hwritten⟩
    rcases instantOf_eq_some.mp hd with ⟨hvalid, rfl⟩
    refine ⟨⟨m, hvalid.date, hvalid.time, hshaped.frac, hvalid.inRange, fun hse => ?_⟩,
      hwritten, ?_⟩
    . rw [InstantFields.minute_emod]
      exact hvalid.leap hse
    . rw [← Option.some.inj h, DateTime.key]
      simp only [hkey m hvalid]
  . rintro ⟨dt, hwritten, rfl⟩
    have hm := instantRe_eq_some.mpr ⟨dt.shaped, hwritten⟩
    have hd := instantOf_eq_some.mpr ⟨dt.valid, rfl⟩
    refine Option.bind_eq_some_iff.mpr ⟨_, Option.bind_eq_some_iff.mpr ⟨_, hm, hd⟩, ?_⟩
    refine Option.bind_eq_some_iff.mpr ⟨_, hm, ?_⟩
    simp only [Option.pure_def, DateTime.key, hkey _ dt.valid]

/-!
### The order of the keys
-/

namespace DateTime

theorem second_le (t : DateTime) : t.second ≤ 59 := by
  have := t.time.2.2
  rw [InstantFields.second]
  split <;> omega

theorem key_whole (t : DateTime) : t.key.whole = t.minute * 60 + t.second := rfl

theorem key_leap (t : DateTime) : t.key.leap = if t.se = 60 then 1 else 0 := rfl

theorem key_frac (t : DateTime) : t.key.frac = Json.trimZeros (t.frac.getD []) := rfl

theorem whole_lt_iff (t u : DateTime)
    : t.key.whole < u.key.whole ↔ t.minute < u.minute ∨ t.minute = u.minute ∧ t.second < u.second := by
  have ht := t.second_le
  have hu := u.second_le
  rw [key_whole, key_whole]
  omega

theorem whole_eq_iff (t u : DateTime)
    : t.key.whole = u.key.whole ↔ t.minute = u.minute ∧ t.second = u.second := by
  have ht := t.second_le
  have hu := u.second_le
  rw [key_whole, key_whole]
  omega

theorem frac_lt_iff (t u : DateTime)
    : t.key.frac < u.key.frac ↔
        Json.fractionValue (t.frac.getD []) < Json.fractionValue (u.frac.getD []) := by
  rw [key_frac, key_frac, Json.lt_iff_fractionValue_lt (Json.isDigit_trimZeros t.isDigit_frac)
    (Json.isDigit_trimZeros u.isDigit_frac) (Json.trimmed_trimZeros _) (Json.trimmed_trimZeros _),
    Json.fractionValue_trimZeros, Json.fractionValue_trimZeros]

theorem frac_eq_iff (t u : DateTime)
    : t.key.frac = u.key.frac ↔
        Json.fractionValue (t.frac.getD []) = Json.fractionValue (u.frac.getD []) := by
  constructor
  . intro h
    rw [← Json.fractionValue_trimZeros (t.frac.getD []), ← Json.fractionValue_trimZeros (u.frac.getD [])]
    exact congrArg Json.fractionValue h
  . intro h
    refine Json.eq_of_fractionValue_eq (Json.isDigit_trimZeros t.isDigit_frac)
      (Json.isDigit_trimZeros u.isDigit_frac) (Json.trimmed_trimZeros _)
      (Json.trimmed_trimZeros _) ?_
    rw [key_frac, key_frac] at *
    rwa [Json.fractionValue_trimZeros, Json.fractionValue_trimZeros]

/--
The seconds of a minute are ordered by the second and the leap flag, and then by the fraction.
-/
theorem seconds_lt_iff (t u : DateTime)
    : t.seconds < u.seconds ↔ t.se < u.se ∨ t.se = u.se ∧
        Json.fractionValue (t.frac.getD []) < Json.fractionValue (u.frac.getD []) := by
  have ht := Json.fractionValue_nonneg (t.frac.getD [])
  have ht' := Json.fractionValue_lt_one t.isDigit_frac
  have hu := Json.fractionValue_nonneg (u.frac.getD [])
  have hu' := Json.fractionValue_lt_one u.isDigit_frac
  rw [InstantFields.seconds, InstantFields.seconds]
  rcases lt_trichotomy t.se u.se with hlt | heq | hgt
  . have hstep : (t.se : ℚ) + 1 ≤ u.se := by exact_mod_cast hlt
    exact ⟨fun _ => Or.inl hlt, fun _ => by linarith⟩
  . rw [heq]
    simp
  . have hstep : (u.se : ℚ) + 1 ≤ t.se := by exact_mod_cast hgt
    constructor
    . intro hlt
      linarith
    . intro h
      omega

theorem seconds_eq_iff (t u : DateTime)
    : t.seconds = u.seconds ↔ t.se = u.se ∧
        Json.fractionValue (t.frac.getD []) = Json.fractionValue (u.frac.getD []) := by
  constructor
  . intro h
    have hlt := (seconds_lt_iff t u).not.mp (by rw [h]; exact lt_irrefl _)
    have hgt := (seconds_lt_iff u t).not.mp (by rw [h]; exact lt_irrefl _)
    have hse : t.se = u.se := by omega
    rw [InstantFields.seconds, InstantFields.seconds, hse] at h
    exact ⟨hse, add_left_cancel h⟩
  . rintro ⟨hse, hfrac⟩
    rw [InstantFields.seconds, InstantFields.seconds, hse, hfrac]

/--
The leap flag tells the leap second from the second that it is mapped to.
-/
theorem second_leap_lt_iff (t u : DateTime)
    : t.second < u.second ∨ t.second = u.second ∧ t.key.leap < u.key.leap ↔ t.se < u.se := by
  have ht := t.time.2.2
  have hu := u.time.2.2
  rw [key_leap, key_leap, InstantFields.second, InstantFields.second]
  split <;> split <;> omega

theorem second_leap_eq_iff (t u : DateTime)
    : t.second = u.second ∧ t.key.leap = u.key.leap ↔ t.se = u.se := by
  have ht := t.time.2.2
  have hu := u.time.2.2
  rw [key_leap, key_leap, InstantFields.second, InstantFields.second]
  split <;> split <;> omega

theorem key_lt_iff (t u : DateTime) : t.key.lt u.key = true ↔ t.utc < u.utc := by
  rw [Key.lt, decide_eq_true_eq, Utc.lt_iff, whole_lt_iff, whole_eq_iff, frac_lt_iff]
  show _ ↔ t.minute < u.minute ∨ t.minute = u.minute ∧ t.seconds < u.seconds
  rw [seconds_lt_iff, ← second_leap_lt_iff, ← second_leap_eq_iff]
  constructor
  . rintro ((h | ⟨hm, h⟩) | ⟨⟨hm, hs⟩, h | ⟨hl, hf⟩⟩)
    . exact Or.inl h
    . exact Or.inr ⟨hm, Or.inl (Or.inl h)⟩
    . exact Or.inr ⟨hm, Or.inl (Or.inr ⟨hs, h⟩)⟩
    . exact Or.inr ⟨hm, Or.inr ⟨⟨hs, hl⟩, hf⟩⟩
  . rintro (h | ⟨hm, (h | ⟨hs, h⟩) | ⟨⟨hs, hl⟩, hf⟩⟩)
    . exact Or.inl (Or.inl h)
    . exact Or.inl (Or.inr ⟨hm, h⟩)
    . exact Or.inr ⟨⟨hm, hs⟩, Or.inl h⟩
    . exact Or.inr ⟨⟨hm, hs⟩, Or.inr ⟨hl, hf⟩⟩

theorem key_eq_iff (t u : DateTime) : t.key = u.key ↔ t.utc = u.utc := by
  have hutc : t.utc = u.utc ↔ t.minute = u.minute ∧ t.seconds = u.seconds := by
    constructor
    . intro h
      have hminute : t.utc.minute = u.utc.minute := by rw [h]
      have hseconds : t.utc.seconds = u.utc.seconds := by rw [h]
      exact ⟨hminute, hseconds⟩
    . rintro ⟨hminute, hseconds⟩
      refine Utc.ext ?_ ?_
      . exact hminute
      . exact hseconds
  rw [hutc, seconds_eq_iff, ← second_leap_eq_iff, ← frac_eq_iff]
  constructor
  . intro h
    rcases (whole_eq_iff t u).mp (congrArg Key.whole h) with ⟨hm, hs⟩
    exact ⟨hm, ⟨hs, congrArg Key.leap h⟩, congrArg Key.frac h⟩
  . rintro ⟨hm, ⟨hs, hl⟩, hf⟩
    exact Key.ext ((whole_eq_iff t u).mpr ⟨hm, hs⟩) hl hf

end DateTime

/--
The text is a date and time, and the moment is the one it stands for.
-/
def Denotes (t : Str) (u : Utc) : Prop := ∃ dt : DateTime, dt.Written t ∧ dt.utc = u

theorem Denotes.unique {t : Str} {u v : Utc} (hu : Denotes t u) (hv : Denotes t v) : u = v := by
  rcases hu with ⟨du, hdu, rfl⟩
  rcases hv with ⟨dv, hdv, rfl⟩
  have hfields := (instantRe_eq_some.mpr ⟨du.shaped, hdu⟩).symm.trans
    (instantRe_eq_some.mpr ⟨dv.shaped, hdv⟩)
  rw [Option.some.injEq] at hfields
  refine Utc.ext ?_ ?_
  . show du.toInstantFields.minute = dv.toInstantFields.minute
    rw [hfields]
  . show du.toInstantFields.seconds = dv.toInstantFields.seconds
    rw [hfields]

theorem Denotes.key {t : Str} {u : Utc} (hu : Denotes t u)
    : ∃ dt : DateTime, dt.utc = u ∧ instantExact (.str t) = some dt.key := by
  rcases hu with ⟨dt, hdt, hutc⟩
  exact ⟨dt, hutc, instantExact_eq_some.mpr ⟨dt, hdt, rfl⟩⟩

/--
A window with both bounds, and the moment of a receipt.
-/
theorem outsideWindow_eq_none_iff {members : List (Str × Json)} {issuedAt validFrom validUntil : Str}
    {u a b : Utc} (hfrom : Assoc.lookup (txt "valid_from") members = some (.str validFrom))
    (huntil : Assoc.lookup (txt "valid_until") members = some (.str validUntil))
    (hu : Denotes issuedAt u) (ha : Denotes validFrom a) (hb : Denotes validUntil b)
    : outsideWindow (.str issuedAt) (.obj members) = none ↔ a ≤ u ∧ u < b := by
  rcases hu.key with ⟨du, rfl, hku⟩
  rcases ha.key with ⟨da, rfl, hka⟩
  rcases hb.key with ⟨db, rfl, hkb⟩
  simp only [outsideWindow, hfrom, huntil, Option.getD_some, reduceCtorEq, and_self, ↓reduceIte,
    hku, hka, hkb, Option.any_some, Option.isNone_some, Bool.false_eq_true, and_false, ne_eq,
    not_false_eq_true]
  rw [← not_lt, ← DateTime.key_lt_iff, ← DateTime.key_lt_iff]
  cases hfrom : du.key.lt da.key with
  | true => simp
  | false =>
    cases huntil : du.key.lt db.key with
    | true => simp
    | false => simp

/--
An accepted text stands for one moment, keys are ordered as the moments are, and nothing is reported
exactly inside the window.
-/
theorem instantExact_faithful
    : (∀ t k, instantExact (.str t) = some k → ∃! u, Denotes t u) ∧
      (∀ s t k l u v, instantExact (.str s) = some k → instantExact (.str t) = some l →
        Denotes s u → Denotes t v → (k.lt l = true ↔ u < v) ∧ (k = l ↔ u = v)) ∧
      ∀ members issuedAt validFrom validUntil u a b,
        Assoc.lookup (txt "valid_from") members = some (.str validFrom) →
        Assoc.lookup (txt "valid_until") members = some (.str validUntil) →
        Denotes issuedAt u → Denotes validFrom a → Denotes validUntil b →
        (outsideWindow (.str issuedAt) (.obj members) = none ↔ a ≤ u ∧ u < b) := by
  refine ⟨?_, ?_, ?_⟩
  . intro t k hk
    rcases instantExact_eq_some.mp hk with ⟨dt, hdt, _⟩
    exact ⟨dt.utc, ⟨dt, hdt, rfl⟩, fun v hv => hv.unique ⟨dt, hdt, rfl⟩⟩
  . intro s t k l u v hk hl hu hv
    rcases hu.key with ⟨du, rfl, hku⟩
    rcases hv.key with ⟨dv, rfl, hkv⟩
    rw [hk, Option.some.injEq] at hku
    rw [hl, Option.some.injEq] at hkv
    rw [hku, hkv]
    exact ⟨DateTime.key_lt_iff du dv, DateTime.key_eq_iff du dv⟩
  . intro members issuedAt validFrom validUntil u a b hfrom huntil hu ha hb
    exact outsideWindow_eq_none_iff hfrom huntil hu ha hb

/-!
A leap second on a clock that is ahead of UTC, after a second with more digits.
-/

def exampleLeap : DateTime where
  y := 2017
  mo := 1
  d := 1
  h := 0
  mi := 59
  se := 60
  frac := some (txt "50")
  zone := .offset false 1 0
  date := ⟨⟨by decide, by decide, by decide, by decide, by decide⟩, by decide⟩
  time := by decide
  digits := by
    rintro f ⟨⟩
    exact ⟨by decide, List.all_eq_true.mp (by decide +kernel)⟩
  inRange := ⟨by decide, by decide⟩
  leap _ := by
    rw [InstantFields.minute_emod]
    rfl

def exampleBefore : DateTime where
  y := 2016
  mo := 12
  d := 31
  h := 23
  mi := 59
  se := 59
  frac := some (txt "9999999999999")
  zone := .utc
  date := ⟨⟨by decide, by decide, by decide, by decide, by decide⟩, by decide⟩
  time := by decide
  digits := by
    rintro f ⟨⟩
    exact ⟨by decide, List.all_eq_true.mp (by decide +kernel)⟩
  inRange := trivial
  leap := by decide

theorem written_exampleLeap : exampleLeap.Written (txt "2017-01-01T00:59:60.50+01:00") := by
  refine ⟨.ofChar 'T', by decide, .ofChar 'Z', by decide, ?_⟩
  simp only [txt_ofList, exampleLeap]
  decide +kernel

theorem written_exampleBefore
    : exampleBefore.Written (txt "2016-12-31t23:59:59.9999999999999z") := by
  refine ⟨.ofChar 't', by decide, .ofChar 'z', by decide, ?_⟩
  simp only [txt_ofList, exampleBefore]
  decide +kernel

theorem denotes_exampleLeap : Denotes (txt "2017-01-01T00:59:60.50+01:00") exampleLeap.utc :=
  ⟨exampleLeap, written_exampleLeap, rfl⟩

theorem denotes_exampleBefore
    : Denotes (txt "2016-12-31t23:59:59.9999999999999z") exampleBefore.utc :=
  ⟨exampleBefore, written_exampleBefore, rfl⟩

theorem instantExact_faithful_exampleLeap
    : (∃! u, Denotes (txt "2017-01-01T00:59:60.50+01:00") u) ∧
      ((exampleBefore.key.lt exampleLeap.key = true ↔ exampleBefore.utc < exampleLeap.utc) ∧
        (exampleBefore.key = exampleLeap.key ↔ exampleBefore.utc = exampleLeap.utc)) ∧
      (outsideWindow (.str (txt "2017-01-01T00:59:60.50+01:00")) (.obj [
          (txt "valid_from", .str (txt "2016-12-31t23:59:59.9999999999999z")),
          (txt "valid_until", .str (txt "2017-01-01T00:59:60.50+01:00"))]) = none ↔
        exampleBefore.utc ≤ exampleLeap.utc ∧ exampleLeap.utc < exampleLeap.utc) := by
  rcases instantExact_faithful with ⟨hunique, horder, hwindow⟩
  have hleap : instantExact (.str (txt "2017-01-01T00:59:60.50+01:00")) = some exampleLeap.key :=
    instantExact_eq_some.mpr ⟨exampleLeap, written_exampleLeap, rfl⟩
  have hbefore : instantExact (.str (txt "2016-12-31t23:59:59.9999999999999z"))
      = some exampleBefore.key :=
    instantExact_eq_some.mpr ⟨exampleBefore, written_exampleBefore, rfl⟩
  refine ⟨hunique _ _ hleap, ?_, ?_⟩
  . exact horder _ _ _ _ _ _ hbefore hleap denotes_exampleBefore denotes_exampleLeap
  . exact hwindow _ _ _ _ _ _ _ rfl rfl denotes_exampleLeap denotes_exampleBefore
      denotes_exampleLeap

end Acta
end CryptoValid
