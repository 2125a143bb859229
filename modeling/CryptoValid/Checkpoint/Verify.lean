import CryptoValid.Checkpoint.Opening

/-!
This module contains what the check of a note says: all lines of known keys verify, and there is one.
Whether it does depends on the set of lines only, so a note can be changed around the lines of keys
that are not known.
-/

namespace CryptoValid
namespace Checkpoint

section

variable {sha256 : HashFn 32} {crypto : Crypto}

/-!
### Known keys
-/

/--
A key is known if it is the key of one of the verifier keys.
-/
theorem knownKeys_go_eq_ok {known known' : KnownKeys} {ignored ignored' : Nat} {vkeys : List Str}
    (h : knownKeys.go sha256 known ignored vkeys = .ok (known', ignored')) (name : Str)
    (kid : Bytes)
    (typ : Nat) (pub : Bytes)
    : known'.get? (name, kid) = some (typ, pub) ↔
        known.get? (name, kid) = some (typ, pub) ∨
          ∃ v ∈ vkeys, parseVkey sha256 false v = .ok ⟨name, kid, typ, pub⟩ ∧
            typ ∈ supportedTypes := by
  induction vkeys generalizing known ignored with
  | nil =>
    simp only [knownKeys.go, Except.ok.injEq, Prod.mk.injEq] at h
    simp [← h.1]
  | cons v vkeys ih =>
    rcases Except.bind_eq_ok.mp h with ⟨⟨name', kid', typ', pub'⟩, hkey, h⟩
    have hv : parseVkey sha256 false v = .ok ⟨name, kid, typ, pub⟩ ↔
        (name', kid') = (name, kid) ∧ typ' = typ ∧ pub' = pub := by
      rw [hkey, Except.ok.injEq, VKey.mk.injEq, Prod.mk.injEq, and_assoc]
    simp only [List.exists_mem_cons_iff, hv]
    dsimp only at h
    split at h
    . next htyp =>
      rw [ih h]
      constructor
      . rintro (hget | hrest)
        . exact Or.inl hget
        . exact Or.inr (Or.inr hrest)
      . rintro (hget | ⟨⟨_, rfl, _⟩, hsupported⟩ | hrest)
        . exact Or.inl hget
        . exact absurd hsupported htyp
        . exact Or.inr hrest
    . next htyp =>
      split at h
      . simp at h
      . next hsame =>
        rw [ih h, Dict.get?_set]
        simp only [ne_eq, Decidable.not_not] at hsame htyp
        by_cases heq : (name, kid) = (name', kid')
        . rw [if_pos heq, heq, Option.some.injEq, Prod.mk.injEq]
          constructor
          . rintro (⟨rfl, rfl⟩ | hrest)
            . exact Or.inr (Or.inl ⟨⟨rfl, rfl, rfl⟩, htyp⟩)
            . exact Or.inr (Or.inr hrest)
          . rintro (hget | ⟨⟨_, rfl, rfl⟩, _⟩ | hrest)
            . rw [hget] at hsame
              simp only [Option.getD_some, Prod.mk.injEq] at hsame
              exact Or.inl ⟨hsame.1.symm, hsame.2.symm⟩
            . exact Or.inl ⟨rfl, rfl⟩
            . exact Or.inr hrest
        . rw [if_neg heq]
          constructor
          . rintro (hget | hrest)
            . exact Or.inl hget
            . exact Or.inr (Or.inr hrest)
          . rintro (hget | ⟨⟨hname, _⟩, _⟩ | hrest)
            . exact Or.inl hget
            . exact absurd hname.symm heq
            . exact Or.inr hrest

theorem knownKeys_eq_ok {known : KnownKeys} {ignored : Nat} {vkeys : List Str}
    (h : knownKeys sha256 vkeys = .ok (known, ignored)) {name : Str} {kid : Bytes} {typ : Nat}
    {pub : Bytes}
    : known.get? (name, kid) = some (typ, pub) ↔
        ∃ v ∈ vkeys, parseVkey sha256 false v = .ok ⟨name, kid, typ, pub⟩ ∧ typ ∈ supportedTypes := by
  simpa using knownKeys_go_eq_ok h name kid typ pub

/--
What is read strictly is read the same way otherwise.
-/
theorem parseVkey_of_strict {v : Str} {key : VKey} (h : parseVkey sha256 true v = .ok key)
    : parseVkey sha256 false v = .ok key := by
  have hcheck : ∀ key', checkVkey sha256 true key' = .ok key → checkVkey sha256 false key' = .ok key := by
    intro key' hkey'
    unfold checkVkey at hkey' ⊢
    split at hkey'
    . simp at hkey'
    . next hscalar =>
      rw [if_neg hscalar]
      split at hkey'
      . simp at hkey'
      . next hname =>
        rw [if_neg hname]
        split at hkey'
        . next htyp =>
          rw [if_pos htyp]
          exact hkey'
        . next htyp =>
          rw [if_neg htyp]
          split at hkey'
          . simp at hkey'
          . next hsupported =>
            rw [if_neg hsupported]
            exact hkey'
  unfold parseVkey at h ⊢
  split at h
  . simp at h
  . split at h
    . simp at h
    . split at h
      . simp at h
      . next hname =>
        rw [if_neg hname]
        split at h
        . simp at h
        . next hid =>
          rw [if_neg hid]
          split at h
          . simp at h
          . split at h
            . simp at h
            . next hpub =>
              rw [if_neg hpub]
              exact hcheck _ h
          . simp at h

/-!
### Lines
-/

variable (crypto) in
/--
A line of a known key that verifies, and what is reported about it.
-/
def VerifiedBy (ed : Scheme) (known : KnownKeys) (text : Str) (sig : Str × Bytes) (s : Verified)
    : Prop :=
  ∃ typ pub timestamp, known.get? (sig.1, sig.2.take 4) = some (typ, pub) ∧
    checkBody crypto ed text sig.1 typ pub (sig.2.drop 4) = .good timestamp ∧
    s = ⟨sig.1, typ, timestamp⟩

variable (crypto) in
/--
A line that does not spoil a note: its key is not known, or it verifies.
-/
def Harmless (ed : Scheme) (known : KnownKeys) (text : Str) (sig : Str × Bytes) : Prop :=
  known.get? (sig.1, sig.2.take 4) = none ∨ ∃ s, VerifiedBy crypto ed known text sig s

theorem verifySigs_of_harmless {ed : Scheme} {known : KnownKeys} {text : Str}
    {sigs : List (Str × Bytes)} (p : Progress)
    (h : ∀ sig ∈ sigs, Harmless crypto ed known text sig)
    : ∃ q, verifySigs crypto ed known text p sigs = .ok q ∧ q.unverifiable = p.unverifiable ∧
        ∀ s, s ∈ q.verified ↔
          s ∈ p.verified ∨ ∃ sig ∈ sigs, sig ∉ p.seen ∧ VerifiedBy crypto ed known text sig s := by
  induction sigs generalizing p with
  | nil => exact ⟨p, rfl, rfl, by simp⟩
  | cons sig sigs ih =>
    rw [List.forall_mem_cons] at h
    rcases sig with ⟨name, raw⟩
    unfold verifySigs
    simp only [List.exists_mem_cons_iff]
    rcases h.1 with hnone | ⟨s, typ, pub, timestamp, hget, hcheck, hs⟩
    . rcases ih { p with ignored := p.ignored + 1 } h.2 with ⟨q, hq, hun, hmem⟩
      simp only at hnone
      rw [hnone]
      refine ⟨q, hq, hun, ?_⟩
      intro s
      rw [hmem]
      constructor
      . rintro (hin | hrest)
        . exact Or.inl hin
        . exact Or.inr (Or.inr hrest)
      . rintro (hin | ⟨_, typ, pub, timestamp, hget, _⟩ | hrest)
        . exact Or.inl hin
        . simp only at hget
          rw [hnone] at hget
          simp at hget
        . exact Or.inr hrest
    . simp only at hget hcheck hs
      rw [hget]
      dsimp only
      split
      . next hseen =>
        rcases ih p h.2 with ⟨q, hq, hun, hmem⟩
        refine ⟨q, hq, hun, ?_⟩
        intro s
        rw [hmem]
        constructor
        . rintro (hin | hrest)
          . exact Or.inl hin
          . exact Or.inr (Or.inr hrest)
        . rintro (hin | ⟨hnot, _⟩ | hrest)
          . exact Or.inl hin
          . exact absurd hseen hnot
          . exact Or.inr hrest
      . next hseen =>
        rw [hcheck]
        rcases ih ⟨(name, raw) :: p.seen, p.verified ++ [⟨name, typ, timestamp⟩], p.ignored,
          p.unverifiable⟩ h.2 with ⟨q, hq, hun, hmem⟩
        refine ⟨q, hq, hun, ?_⟩
        intro t
        rw [hmem]
        simp only [List.mem_append, List.mem_cons, List.not_mem_nil, or_false, not_or]
        constructor
        . rintro ((hin | rfl) | ⟨sig, hsig, ⟨_, hnot⟩, hby⟩)
          . exact Or.inl hin
          . exact Or.inr (Or.inl ⟨hseen, typ, pub, timestamp, hget, hcheck, rfl⟩)
          . exact Or.inr (Or.inr ⟨sig, hsig, hnot, hby⟩)
        . rintro (hin | ⟨_, typ', pub', timestamp', hget', hcheck', rfl⟩ | ⟨sig, hsig, hnot, hby⟩)
          . exact Or.inl (Or.inl hin)
          . simp only at hget' hcheck'
            rw [hget, Option.some.injEq, Prod.mk.injEq] at hget'
            rcases hget' with ⟨rfl, rfl⟩
            rw [hcheck, Check.good.injEq] at hcheck'
            rw [← hcheck']
            exact Or.inl (Or.inr rfl)
          . by_cases heq : sig = (name, raw)
            . rcases hby with ⟨typ', pub', timestamp', hget', hcheck', rfl⟩
              rw [heq] at hget' hcheck'
              simp only at hget' hcheck'
              rw [hget, Option.some.injEq, Prod.mk.injEq] at hget'
              rcases hget' with ⟨rfl, rfl⟩
              rw [hcheck, Check.good.injEq] at hcheck'
              rw [← hcheck', heq]
              exact Or.inl (Or.inr rfl)
            . exact Or.inr ⟨sig, hsig, ⟨heq, hnot⟩, hby⟩

theorem verifySigs_eq_ok {ed : Scheme} {known : KnownKeys} {text : Str}
    {sigs : List (Str × Bytes)} {p q : Progress}
    (h : verifySigs crypto ed known text p sigs = .ok q) (hun : q.unverifiable = 0)
    : p.unverifiable = 0 ∧ ∀ sig ∈ sigs, sig ∈ p.seen ∨ Harmless crypto ed known text sig := by
  induction sigs generalizing p with
  | nil =>
    rw [verifySigs, Except.ok.injEq] at h
    exact ⟨h ▸ hun, by simp⟩
  | cons sig sigs ih =>
    rcases sig with ⟨name, raw⟩
    unfold verifySigs at h
    rw [List.forall_mem_cons]
    split at h
    . next hnone =>
      rcases ih h with ⟨hp, hall⟩
      exact ⟨hp, Or.inr (Or.inl hnone), hall⟩
    . next typ pub hget =>
      split at h
      . next hseen =>
        rcases ih h with ⟨hp, hall⟩
        exact ⟨hp, Or.inl hseen, hall⟩
      . dsimp only at h
        split at h
        . simp at h
        . rcases ih h with ⟨hp, _⟩
          simp at hp
        . next timestamp hcheck =>
          rcases ih h with ⟨hp, hall⟩
          have hgood : Harmless crypto ed known text (name, raw) :=
            Or.inr ⟨_, typ, pub, timestamp, hget, hcheck, rfl⟩
          refine ⟨hp, Or.inr hgood, ?_⟩
          intro sig hsig
          rcases hall sig hsig with hseen | hharmless
          . rcases List.mem_cons.mp hseen with rfl | hseen
            . exact Or.inr hgood
            . exact Or.inl hseen
          . exact Or.inr hharmless

/--
The verdict is a property of the set of lines.
-/
theorem noteResult_ok_iff {ed : Scheme} {known : KnownKeys} {text : Str} {ignored : Nat}
    {sigs : List (Str × Bytes)}
    : (noteResult text ignored (verifySigs crypto ed known text .start sigs)).verdict = .ok ↔
        (∀ sig ∈ sigs, Harmless crypto ed known text sig) ∧
          ∃ sig ∈ sigs, ∃ s, VerifiedBy crypto ed known text sig s := by
  constructor
  . intro h
    cases hv : verifySigs crypto ed known text .start sigs with
    | error e =>
      rw [hv] at h
      simp [noteResult] at h
    | ok q =>
      rw [hv] at h
      simp only [noteResult] at h
      split at h
      . simp at h
      . next hun =>
        split at h
        . simp at h
        . next hne =>
          have hharmless : ∀ sig ∈ sigs, Harmless crypto ed known text sig := by
            intro sig hsig
            rcases (verifySigs_eq_ok hv (by simpa using hun)).2 sig hsig with hseen | hok
            . simp [Progress.start] at hseen
            . exact hok
          refine ⟨hharmless, ?_⟩
          rcases verifySigs_of_harmless .start hharmless with ⟨q', hq', _, hmem⟩
          rw [hv, Except.ok.injEq] at hq'
          subst hq'
          cases hverified : q.verified with
          | nil => simp [hverified] at hne
          | cons s rest =>
            have hs := (hmem s).mp (by simp [hverified])
            simp only [Progress.start, List.not_mem_nil, not_false_eq_true, true_and,
              false_or] at hs
            rcases hs with ⟨sig, hsig, hby⟩
            exact ⟨sig, hsig, s, hby⟩
  . rintro ⟨hharmless, sig, hsig, s, hby⟩
    rcases verifySigs_of_harmless .start hharmless with ⟨q, hq, hun, hmem⟩
    have hs : s ∈ q.verified := (hmem s).mpr (Or.inr ⟨sig, hsig, by simp [Progress.start], hby⟩)
    have hne : q.verified.isEmpty = false := by
      cases hverified : q.verified with
      | nil => simp [hverified] at hs
      | cons => rfl
    rw [hq]
    simp [noteResult, hun, Progress.start, hne]

theorem mem_noteResult_verified {ed : Scheme} {known : KnownKeys} {text : Str} {ignored : Nat}
    {sigs : List (Str × Bytes)}
    (h : (noteResult text ignored (verifySigs crypto ed known text .start sigs)).verdict = .ok)
    (s : Verified)
    : s ∈ (noteResult text ignored (verifySigs crypto ed known text .start sigs)).verified ↔
        ∃ sig ∈ sigs, VerifiedBy crypto ed known text sig s := by
  rcases verifySigs_of_harmless .start (noteResult_ok_iff.mp h).1 with ⟨q, hq, _, hmem⟩
  rw [hq]
  simp [noteResult, hmem, Progress.start]

@[simp]
theorem noteResult_text (text : Str) (ignored : Nat) (checked : Except (Str × Nat) Progress)
    : (noteResult text ignored checked).text = some text := by
  cases checked <;> rfl

/--
A note is found good if it can be read and its lines are.
-/
theorem verifyNote_eq_ok {note : Bytes} {vkeys : List Str} {res : NoteResult}
    (hok : res.verdict = .ok)
    : verifyNote sha256 crypto note vkeys = .ok res ↔
        ∃ known ignored ed text lines sigs, knownKeys sha256 vkeys = .ok (known, ignored) ∧
          crypto.ed25519 = some ed ∧ IsNote note text lines sigs ∧
          res = noteResult text ignored (verifySigs crypto ed known text .start sigs) := by
  unfold verifyNote
  rw [Except.bind_eq_ok]
  constructor
  . rintro ⟨⟨known, ignored⟩, hknown, h⟩
    dsimp only at h
    split at h
    . rw [← Except.pure_eq_ok.mp h] at hok
      simp at hok
    . next text sigs hsplit =>
      split at h
      . rw [← Except.pure_eq_ok.mp h] at hok
        simp at hok
      . next ed hed =>
        rcases splitNote_eq_ok.mp hsplit with ⟨lines, hnote⟩
        exact ⟨known, ignored, ed, text, lines, sigs, hknown, hed, hnote,
          (Except.pure_eq_ok.mp h).symm⟩
  . rintro ⟨known, ignored, ed, text, lines, sigs, hknown, hed, hnote, rfl⟩
    refine ⟨(known, ignored), hknown, ?_⟩
    simp only [splitNote_eq_ok.mpr ⟨lines, hnote⟩, hed]
    rfl

end

end Checkpoint
end CryptoValid
