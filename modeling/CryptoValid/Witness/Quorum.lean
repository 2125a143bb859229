import CryptoValid.Witness.Safety
import Mathlib.Data.List.Sort
import Mathlib.Data.Nat.SuccPred
import Mathlib.Order.SuccPred.Archimedean

/-!
This module contains the check of a relying party that requires witnesses: when it finds a note good,
in terms of the signature lines of trusted keys alone, and what may be done to a note and to the list
of keys without changing that.
-/

namespace CryptoValid
namespace Witness

open Checkpoint

/--
The types of the keys that cosign.
-/
def witnessTypes : List Nat := [typeCosigV1, typeMldsa44]

/--
What the relying party requires. `now` is the clock of the host if it is not given.
-/
structure Policy where
  minWitnesses : Int
  maxAge : Option Int
  now : Option Int
  clockSkew : Int
  expectedOrigin : Option Str

inductive Shortfall where
  | note (reason : Option Str)
  | noLogSignature
  | checkpoint (e : NoteError)
  | origin (shown expected : Str)
  | witnesses (count : Nat) (required : Int)
  | fresh (count : Nat) (maxAge required : Int) (newest : Option Int) (future : List Str)
  deriving DecidableEq

structure Witnessed where
  verdict : Verdict
  witnesses : List Str
  freshWitnesses : Option (List Str)
  futureWitnesses : Option (List Str)
  freshness : Option Int
  checkpoint : Option Parsed
  reason : Option Shortfall
  deriving DecidableEq

def Witnessed.start : Witnessed := ⟨.notValid, [], none, none, none, none, none⟩

/--
The newest timestamp of each witness.
-/
def newestCosignatures (verified : List Verified) : Dict Str Nat :=
  (verified.filter fun s => s.typ ∈ witnessTypes).foldl
    (fun wits s => wits.set s.name (max ((wits.get? s.name).getD 0) (s.timestamp.getD 0))) Dict.empty

def sortedNames (wits : List (Str × Nat)) : List Str := (wits.map Prod.fst).insertionSort (· ≤ ·)

/--
What is reported on the witnesses once the rest of the note is found good.
-/
def countWitnesses (clock : Int) (p : Policy) (wits : List (Str × Nat)) (out : Witnessed)
    : Witnessed :=
  let out := { out with witnesses := sortedNames wits }
  if (wits.length : Int) < p.minWitnesses then
    { out with reason := some (.witnesses wits.length p.minWitnesses) }
  else
    match p.maxAge with
    | none => { out with verdict := .ok }
    | some maxAge =>
      let now := p.now.getD clock
      let future := wits.filter fun w => now + p.clockSkew < w.2
      let present := wits.filter fun w => !(now + p.clockSkew < w.2)
      let newest := (present.map Prod.snd).max?
      let fresh := present.filter fun w => now - w.2 ≤ maxAge
      let out := { out with
        futureWitnesses := some (sortedNames future)
        freshness := newest.map fun t => now - t
        freshWitnesses := some (sortedNames fresh) }
      if (fresh.length : Int) < p.minWitnesses then
        { out with reason := some (.fresh fresh.length maxAge p.minWitnesses out.freshness
          (sortedNames future)) }
      else
        { out with verdict := .ok }

section

variable (sha256 : HashFn 32) (crypto : Crypto)

/--
Cosigner keys that can be verified. Keys of other types are passed over, but for those of a log.
-/
def usableWitnesses : List Str → Except NoteError (List Str)
  | [] => .ok []
  | wv :: rest => do
    let key ← parseVkey sha256 false wv
    if key.typ ∈ logKeyTypes then
      .error (txt "witness vkeys must be cosigner keys (type 0x04 or 0x06): a log key is not a witness")
    else do
      let usable ← usableWitnesses rest
      return if key.typ ∈ witnessTypes then wv :: usable else usable

def verifyWitnessed (clock : Int) (note : Bytes) (logVkeys witnessVkeys : List Str) (p : Policy)
    : Except NoteError Witnessed :=
  if p.minWitnesses < 1 then
    .error (txt "min_witnesses must be an integer >= 1 (a relying party that needs no witness has " ++
      txt "no freshness)")
  else if p.clockSkew < 0 then
    .error (txt "clock_skew_s must be a non-negative integer")
  else if logVkeys.isEmpty then
    .error (txt "at least one trusted log vkey is required")
  else do
    let logKeys ← logVkeys.mapM (parseVkey sha256 true)
    if logKeys.any fun key => key.typ ∉ logKeyTypes then
      .error (txt "a log key must be an Ed25519 (0x01) or ECDSA (0x02) note key, not a cosigner key")
    else
      let names := (logKeys.map VKey.name).dedup
      if p.expectedOrigin.isNone ∧ names.length ≠ 1 then
        .error (txt "trusted log keys with different names need an explicit expected_origin")
      else do
        let origin := p.expectedOrigin.getD (names.headD [])
        let usable ← usableWitnesses sha256 witnessVkeys
        let v ← verifyNote sha256 crypto note (logVkeys ++ usable)
        if v.verdict ≠ .ok then
          return { Witnessed.start with verdict := v.verdict, reason := some (.note v.reason) }
        else if !hasLogSignature names v.verified then
          return { Witnessed.start with reason := some .noLogSignature }
        else
          match parseCheckpoint (v.text.getD []) with
          | .error e => return { Witnessed.start with reason := some (.checkpoint e) }
          | .ok cp =>
            let out := { Witnessed.start with checkpoint := some cp }
            if cp.origin ≠ origin then
              return { out with reason := some (.origin cp.origin origin) }
            else
              return countWitnesses clock p (newestCosignatures v.verified).items out

end

/--
The check reports that the note is good.
-/
def Satisfied (sha256 : HashFn 32) (crypto : Crypto) (clock : Int) (note : Bytes)
    (logVkeys witnessVkeys : List Str) (p : Policy) : Prop :=
  ∃ out, verifyWitnessed sha256 crypto clock note logVkeys witnessVkeys p = .ok out ∧
    out.verdict = .ok

/-!
### Counting
-/

/--
At least `k` names, each counted once.
-/
def AtLeast (k : Int) (P : Str → Prop) : Prop :=
  ∃ names : List Str, names.Nodup ∧ k ≤ names.length ∧ ∀ name ∈ names, P name

theorem AtLeast.mono {k : Int} {P Q : Str → Prop} (h : AtLeast k P) (hPQ : ∀ name, P name → Q name)
    : AtLeast k Q := by
  rcases h with ⟨names, hnodup, hlen, hall⟩
  exact ⟨names, hnodup, hlen, fun name hname => hPQ name (hall name hname)⟩

theorem atLeast_congr {k : Int} {P Q : Str → Prop} (hPQ : ∀ name, P name ↔ Q name)
    : AtLeast k P ↔ AtLeast k Q :=
  ⟨fun h => h.mono fun name => (hPQ name).mp, fun h => h.mono fun name => (hPQ name).mpr⟩

/--
Entries of a dictionary are counted by their keys.
-/
theorem atLeast_filter_iff {k : Int} (wits : Dict Str Nat) (p : Str × Nat → Bool)
    : k ≤ (wits.items.filter p).length ↔
        AtLeast k fun name => ∃ t, wits.get? name = some t ∧ p (name, t) = true := by
  constructor
  . intro h
    refine ⟨(wits.items.filter p).map Prod.fst, ?_, by simpa using h, ?_⟩
    . exact wits.nodup.sublist ((List.filter_sublist (l := wits.items)).map Prod.fst)
    . rw [List.forall_mem_map]
      rintro ⟨name, t⟩ hmem
      rw [List.mem_filter, Dict.mem_items_iff] at hmem
      exact ⟨t, hmem⟩
  . rintro ⟨names, hnodup, hlen, hall⟩
    refine hlen.trans ?_
    have hsubset : names ⊆ (wits.items.filter p).map Prod.fst := by
      intro name hname
      rcases hall name hname with ⟨t, hget, hp⟩
      exact List.mem_map.mpr ⟨(name, t), List.mem_filter.mpr ⟨(wits.mem_items_iff _ _).mpr hget, hp⟩,
        rfl⟩
    have hle := hnodup.length_le_of_subset hsubset
    rw [List.length_map] at hle
    exact Int.ofNat_le.mpr hle

theorem get?_foldl_max (cosigs : List (Str × Nat)) (wits : Dict Str Nat) {name : Str} {t : Nat}
    : (cosigs.foldl (fun wits s => wits.set s.1 (max ((wits.get? s.1).getD 0) s.2)) wits).get? name
          = some t ↔
        IsGreatest {u | wits.get? name = some u ∨ (name, u) ∈ cosigs} t := by
  induction cosigs generalizing wits with
  | nil =>
    simp only [List.foldl_nil, List.not_mem_nil, or_false]
    constructor
    . intro h
      exact ⟨h, fun u hu => le_of_eq (Option.some.inj (hu.symm.trans h))⟩
    . exact fun h => h.1
  | cons s cosigs ih =>
    rw [List.foldl_cons, ih]
    by_cases hname : name = s.1
    . -- the entry of the name is now the larger of the two
      subst hname
      have hget : ∀ u, (wits.set s.1 (max ((wits.get? s.1).getD 0) s.2)).get? s.1 = some u ↔
          u = max ((wits.get? s.1).getD 0) s.2 := by
        intro u
        rw [Dict.get?_set_self, Option.some.injEq, eq_comm]
      have hmem : ∀ u, (s.1, u) ∈ s :: cosigs ↔ u = s.2 ∨ (s.1, u) ∈ cosigs := by
        intro u
        rw [List.mem_cons, Prod.ext_iff]
        simp
      simp only [hget, hmem]
      cases hold : wits.get? s.1 with
      | none => simp
      | some v =>
        simp only [Option.getD_some, IsGreatest, upperBounds, Set.mem_ofPred_eq, Option.some.injEq]
        constructor
        . rintro ⟨hin, hle⟩
          have hmax := hle (Or.inl rfl)
          refine ⟨?_, ?_⟩
          . rcases hin with rfl | hin
            . rcases le_total v s.2 with h | h
              . exact Or.inr (Or.inl (max_eq_right h))
              . exact Or.inl (max_eq_left h).symm
            . exact Or.inr (Or.inr hin)
          . rintro u (rfl | rfl | hu)
            . exact (le_max_left _ _).trans hmax
            . exact (le_max_right _ _).trans hmax
            . exact hle (Or.inr hu)
        . rintro ⟨hin, hle⟩
          have hv := hle (Or.inl rfl)
          have hs := hle (Or.inr (Or.inl rfl))
          refine ⟨?_, ?_⟩
          . rcases hin with rfl | rfl | hin
            . exact Or.inl (max_eq_left hs).symm
            . exact Or.inl (max_eq_right hv).symm
            . exact Or.inr hin
          . rintro u (rfl | hu)
            . exact max_le hv hs
            . exact hle (Or.inr (Or.inr hu))
    . have hmem : ∀ u, (name, u) ∈ s :: cosigs ↔ (name, u) ∈ cosigs := by
        intro u
        rw [List.mem_cons, Prod.ext_iff]
        simp [hname]
      simp only [Dict.get?_set_of_ne _ _ hname, hmem]

theorem get?_newestCosignatures (verified : List Verified) {name : Str} {t : Nat}
    : (newestCosignatures verified).get? name = some t ↔
        IsGreatest {u | ∃ s ∈ verified, s.typ ∈ witnessTypes ∧ s.name = name ∧
          s.timestamp.getD 0 = u} t := by
  have hfold : newestCosignatures verified
      = ((verified.filter fun s => s.typ ∈ witnessTypes).map fun s =>
          (s.name, s.timestamp.getD 0)).foldl
        (fun wits s => wits.set s.1 (max ((wits.get? s.1).getD 0) s.2)) Dict.empty := by
    rw [List.foldl_map]
    rfl
  rw [hfold, get?_foldl_max]
  have hset : ∀ u, (Dict.empty.get? name = some u ∨ (name, u) ∈
      (verified.filter fun s => s.typ ∈ witnessTypes).map fun s => (s.name, s.timestamp.getD 0)) ↔
      ∃ s ∈ verified, s.typ ∈ witnessTypes ∧ s.name = name ∧ s.timestamp.getD 0 = u := by
    intro u
    simp [and_assoc]
  simp only [hset]

/--
A witness with a cosignature has a newest one.
-/
theorem exists_get?_newestCosignatures {verified : List Verified} {s : Verified} (hs : s ∈ verified)
    (htyp : s.typ ∈ witnessTypes) : ∃ t, (newestCosignatures verified).get? s.name = some t := by
  have hbound : ∃ b, ∀ s ∈ verified, s.timestamp.getD 0 ≤ b := by
    clear hs
    induction verified with
    | nil => exact ⟨0, by simp⟩
    | cons s' verified ih =>
      rcases ih with ⟨b, hb⟩
      refine ⟨max (s'.timestamp.getD 0) b, List.forall_mem_cons.mpr ⟨le_max_left _ _, ?_⟩⟩
      exact fun s hs => (hb s hs).trans (le_max_right _ _)
  rcases hbound with ⟨b, hb⟩
  simp only [get?_newestCosignatures]
  refine BddAbove.exists_isGreatest_of_nonempty ⟨b, ?_⟩ ⟨_, s, hs, htyp, rfl, rfl⟩
  rintro u ⟨s', hs', _, _, rfl⟩
  exact hb s' hs'

section

variable (sha256 : HashFn 32) (crypto : Crypto)

/-!
### What is required
-/

/--
The keys whose signature lines have to verify.
-/
def Trusted (logVkeys witnessVkeys : List Str) (key : VKey) : Prop :=
  (∃ v ∈ logVkeys, parseVkey sha256 true v = .ok key) ∨
    ∃ v ∈ witnessVkeys, parseVkey sha256 false v = .ok key ∧ key.typ ∈ witnessTypes

/--
Arguments that do not raise.
-/
structure Configured (logVkeys witnessVkeys : List Str) (p : Policy) (origin : Str) : Prop where
  minWitnesses_pos : 1 ≤ p.minWitnesses
  clockSkew_nonneg : 0 ≤ p.clockSkew
  logVkeys_ne_nil : logVkeys ≠ []
  log_keys : ∀ v ∈ logVkeys, ∃ key, parseVkey sha256 true v = .ok key ∧ key.typ ∈ logKeyTypes
  witness_keys : ∀ v ∈ witnessVkeys, ∃ key, parseVkey sha256 false v = .ok key ∧
    key.typ ∉ logKeyTypes
  origin_eq : p.expectedOrigin = some origin ∨ p.expectedOrigin = none ∧
    ∀ v ∈ logVkeys, ∀ key, parseVkey sha256 true v = .ok key → key.name = origin
  no_clash : ∀ key key', Trusted sha256 logVkeys witnessVkeys key →
    Trusted sha256 logVkeys witnessVkeys key' → key.name = key'.name → key.kid = key'.kid →
    key = key'

/--
The line carries the name and the id of the key.
-/
def LineOf (sig : Str × Bytes) (key : VKey) : Prop := key.name = sig.1 ∧ key.kid = sig.2.take 4

/--
The line verifies under the key, with the timestamp that it states.
-/
def Signs (ed : Scheme) (text : Str) (key : VKey) (sig : Str × Bytes) (t : Option Nat) : Prop :=
  LineOf sig key ∧ checkBody crypto ed text key.name key.typ key.pub (sig.2.drop 4) = .good t

/--
A trusted key of the witness has a cosignature of the time `t` in the note.
-/
def CosignedAt (logVkeys witnessVkeys : List Str) (ed : Scheme) (text : Str)
    (sigs : List (Str × Bytes)) (name : Str) (t : Nat) : Prop :=
  ∃ sig ∈ sigs, ∃ key, Trusted sha256 logVkeys witnessVkeys key ∧ key.typ ∈ witnessTypes ∧
    key.name = name ∧ Signs crypto ed text key sig (some t)

structure Quorum (clock : Int) (logVkeys witnessVkeys : List Str) (p : Policy) (origin : Str)
    (ed : Scheme) (text : Str) (sigs : List (Str × Bytes)) : Prop where
  trusted_verify : ∀ sig ∈ sigs, ∀ key, Trusted sha256 logVkeys witnessVkeys key → LineOf sig key →
    ∃ t, Signs crypto ed text key sig t
  log_line : ∃ sig ∈ sigs, ∃ key, Trusted sha256 logVkeys witnessVkeys key ∧
    key.typ ∈ logKeyTypes ∧ ∃ t, Signs crypto ed text key sig t
  checkpoint : ∃ cp, parseCheckpoint text = .ok cp ∧ cp.origin = origin
  witnesses : AtLeast p.minWitnesses fun name =>
    ∃ t, CosignedAt sha256 crypto logVkeys witnessVkeys ed text sigs name t
  fresh : ∀ maxAge, p.maxAge = some maxAge → AtLeast p.minWitnesses fun name => ∃ t : Nat,
    IsGreatest {u | CosignedAt sha256 crypto logVkeys witnessVkeys ed text sigs name u} t ∧
      p.now.getD clock - maxAge ≤ t ∧ t ≤ p.now.getD clock + p.clockSkew

end

section

variable {sha256 : HashFn 32} {crypto : Crypto}

/-!
### Keys
-/

theorem knownKeys_go_isOk {vkeys : List Str} (known : KnownKeys) (ignored : Nat)
    (hparse : ∀ v ∈ vkeys, ∃ key, parseVkey sha256 false v = .ok key)
    (hold : ∀ v ∈ vkeys, ∀ key, parseVkey sha256 false v = .ok key → key.typ ∈ supportedTypes →
      ∀ old, known.get? (key.name, key.kid) = some old → old = (key.typ, key.pub))
    (hclash : ∀ v ∈ vkeys, ∀ v' ∈ vkeys, ∀ key key', parseVkey sha256 false v = .ok key →
      parseVkey sha256 false v' = .ok key' → key.typ ∈ supportedTypes → key'.typ ∈ supportedTypes →
      key.name = key'.name → key.kid = key'.kid → key = key')
    : ∃ res, knownKeys.go sha256 known ignored vkeys = .ok res := by
  induction vkeys generalizing known ignored with
  | nil => exact ⟨_, rfl⟩
  | cons v vkeys ih =>
    rw [List.forall_mem_cons] at hparse hold
    rcases hparse.1 with ⟨key, hkey⟩
    have hclash' := fun v₁ hv₁ v₂ hv₂ =>
      hclash v₁ (List.mem_cons_of_mem v hv₁) v₂ (List.mem_cons_of_mem v hv₂)
    rw [knownKeys.go, hkey, Except.ok_bind]
    split
    . exact ih known (ignored + 1) hparse.2 hold.2 hclash'
    . next htyp =>
      rw [Decidable.not_not] at htyp
      have hsame : (known.get? (key.name, key.kid)).getD (key.typ, key.pub) = (key.typ, key.pub) := by
        cases hget : known.get? (key.name, key.kid) with
        | none => rfl
        | some old => exact hold.1 key hkey htyp old hget
      rw [if_neg (not_not.mpr hsame)]
      refine ih _ _ hparse.2 ?_ hclash'
      intro v' hv' key' hkey' htyp' old hget
      rw [Dict.get?_set] at hget
      split at hget
      . next heq =>
        rw [Prod.mk.injEq] at heq
        have := hclash v List.mem_cons_self v' (List.mem_cons_of_mem v hv') key key' hkey hkey' htyp
          htyp' heq.1.symm heq.2.symm
        rw [← Option.some.inj hget, this]
      . exact hold.2 v' hv' key' hkey' htyp' old hget

theorem supported_of_witness {typ : Nat} (h : typ ∈ witnessTypes) : typ ∈ supportedTypes := by
  revert h
  simp only [witnessTypes, supportedTypes, List.mem_cons, List.not_mem_nil, or_false]
  tauto

theorem not_witness_of_log {typ : Nat} (h : typ ∈ logKeyTypes) : typ ∉ witnessTypes := by
  revert h
  simp only [witnessTypes, logKeyTypes, List.mem_cons, List.not_mem_nil, or_false]
  rintro (rfl | rfl) <;> decide

theorem usableWitnesses_eq_ok {witnessVkeys usable : List Str}
    : usableWitnesses sha256 witnessVkeys = .ok usable ↔
        (∀ v ∈ witnessVkeys, ∃ key, parseVkey sha256 false v = .ok key ∧ key.typ ∉ logKeyTypes) ∧
          usable = witnessVkeys.filter fun v =>
            match parseVkey sha256 false v with
            | .ok key => key.typ ∈ witnessTypes
            | .error _ => false := by
  induction witnessVkeys generalizing usable with
  | nil => simp [usableWitnesses, eq_comm]
  | cons v rest ih =>
    rw [usableWitnesses, Except.bind_eq_ok, List.forall_mem_cons]
    constructor
    . rintro ⟨key, hkey, h⟩
      split at h
      . simp at h
      . next htyp =>
        rcases Except.bind_eq_ok.mp h with ⟨usable', husable, h⟩
        rcases ih.mp husable with ⟨hall, rfl⟩
        refine ⟨⟨⟨key, hkey, htyp⟩, hall⟩, ?_⟩
        rw [← Except.pure_eq_ok.mp h, List.filter_cons, hkey]
        simp
    . rintro ⟨⟨⟨key, hkey, htyp⟩, hall⟩, rfl⟩
      refine ⟨key, hkey, ?_⟩
      rw [if_neg htyp, ih.mpr ⟨hall, rfl⟩, Except.ok_bind, List.filter_cons, hkey, Except.pure_eq_ok]
      simp

/--
The keys that are known are the trusted ones.
-/
theorem exists_parse_iff_trusted {logVkeys witnessVkeys usable : List Str}
    (hlog : ∀ v ∈ logVkeys, ∃ key, parseVkey sha256 true v = .ok key ∧ key.typ ∈ logKeyTypes)
    (husable : usableWitnesses sha256 witnessVkeys = .ok usable) {key : VKey}
    : (∃ v ∈ logVkeys ++ usable, parseVkey sha256 false v = .ok key ∧ key.typ ∈ supportedTypes) ↔
        Trusted sha256 logVkeys witnessVkeys key := by
  rcases usableWitnesses_eq_ok.mp husable with ⟨_, rfl⟩
  constructor
  . rintro ⟨v, hv, hkey, _⟩
    rcases List.mem_append.mp hv with hv | hv
    . rcases hlog v hv with ⟨key', hkey', _⟩
      rw [parseVkey_of_strict hkey', Except.ok.injEq] at hkey
      exact Or.inl ⟨v, hv, hkey ▸ hkey'⟩
    . rw [List.mem_filter, hkey] at hv
      exact Or.inr ⟨v, hv.1, hkey, by simpa using hv.2⟩
  . rintro (⟨v, hv, hkey⟩ | ⟨v, hv, hkey, htyp⟩)
    . rcases hlog v hv with ⟨key', hkey', htyp⟩
      rw [hkey, Except.ok.injEq] at hkey'
      exact ⟨v, List.mem_append_left _ hv, parseVkey_of_strict hkey,
        supported_of_log (hkey'.symm ▸ htyp)⟩
    . refine ⟨v, List.mem_append_right _ (List.mem_filter.mpr ⟨hv, ?_⟩), hkey,
        supported_of_witness htyp⟩
      rw [hkey]
      simpa using htyp

variable (sha256) in
/--
What the arguments are read as.
-/
structure Prepared (logVkeys witnessVkeys : List Str) (p : Policy) (origin : Str)
    (logKeys : List VKey) (usable : List Str) (known : KnownKeys) (ignored : Nat) : Prop where
  minWitnesses_pos : 1 ≤ p.minWitnesses
  clockSkew_nonneg : 0 ≤ p.clockSkew
  logVkeys_ne_nil : logVkeys ≠ []
  logKeys_eq : logVkeys.mapM (parseVkey sha256 true) = .ok logKeys
  logKeys_typ : ∀ key ∈ logKeys, key.typ ∈ logKeyTypes
  names_eq : p.expectedOrigin = none → ((logKeys.map VKey.name).dedup).length = 1
  origin_eq : p.expectedOrigin.getD ((logKeys.map VKey.name).dedup.headD []) = origin
  usable_eq : usableWitnesses sha256 witnessVkeys = .ok usable
  known_eq : knownKeys sha256 (logVkeys ++ usable) = .ok (known, ignored)

theorem Prepared.log_keys {logVkeys witnessVkeys usable : List Str} {p : Policy} {origin : Str}
    {logKeys : List VKey} {known : KnownKeys} {ignored : Nat}
    (h : Prepared sha256 logVkeys witnessVkeys p origin logKeys usable known ignored)
    : ∀ v ∈ logVkeys, ∃ key, parseVkey sha256 true v = .ok key ∧ key.typ ∈ logKeyTypes := by
  intro v hv
  rcases List.exists_of_mem_left (Except.mapM_eq_ok.mp h.logKeys_eq) hv with ⟨key, hmem, hkey⟩
  exact ⟨key, hkey, h.logKeys_typ key hmem⟩

theorem Prepared.known_iff {logVkeys witnessVkeys usable : List Str} {p : Policy} {origin : Str}
    {logKeys : List VKey} {known : KnownKeys} {ignored : Nat}
    (h : Prepared sha256 logVkeys witnessVkeys p origin logKeys usable known ignored) {name : Str}
    {kid : Bytes} {typ : Nat} {pub : Bytes}
    : known.get? (name, kid) = some (typ, pub) ↔
        Trusted sha256 logVkeys witnessVkeys ⟨name, kid, typ, pub⟩ := by
  rw [knownKeys_eq_ok h.known_eq, ← exists_parse_iff_trusted h.log_keys h.usable_eq]

theorem exists_logKeys {vkeys : List Str}
    (h : ∀ v ∈ vkeys, ∃ key, parseVkey sha256 true v = .ok key ∧ key.typ ∈ logKeyTypes)
    : ∃ logKeys, vkeys.mapM (parseVkey sha256 true) = .ok logKeys ∧
        ∀ key ∈ logKeys, key.typ ∈ logKeyTypes := by
  induction vkeys with
  | nil => exact ⟨[], rfl, by simp⟩
  | cons v vkeys ih =>
    rw [List.forall_mem_cons] at h
    rcases h.1 with ⟨key, hkey, htyp⟩
    rcases ih h.2 with ⟨logKeys, hlogKeys, hall⟩
    refine ⟨key :: logKeys, ?_, List.forall_mem_cons.mpr ⟨htyp, hall⟩⟩
    rw [Except.mapM_eq_ok] at hlogKeys ⊢
    exact .cons hkey hlogKeys

/--
Names that are one after removing duplicates are all the same.
-/
theorem dedup_eq_singleton_iff {names : List Str} (hne : names ≠ []) {origin : Str}
    : (names.dedup.length = 1 ∧ names.dedup.headD [] = origin) ↔ ∀ name ∈ names, name = origin := by
  constructor
  . rintro ⟨hlen, hhead⟩ name hname
    rcases List.length_eq_one_iff.mp hlen with ⟨only, honly⟩
    rw [← List.mem_dedup, honly, List.mem_singleton] at hname
    rw [honly] at hhead
    rw [hname]
    exact hhead
  . intro hall
    have honly : names.dedup = [origin] := by
      rw [List.eq_replicate_iff.mpr ⟨rfl, hall⟩, List.replicate_dedup]
      exact fun hzero => hne (List.length_eq_zero_iff.mp hzero)
    simp [honly]

theorem configured_iff {logVkeys witnessVkeys : List Str} {p : Policy} {origin : Str}
    : Configured sha256 logVkeys witnessVkeys p origin ↔
        ∃ logKeys usable known ignored,
          Prepared sha256 logVkeys witnessVkeys p origin logKeys usable known ignored := by
  have hnames : ∀ logKeys, logVkeys ≠ [] → logVkeys.mapM (parseVkey sha256 true) = .ok logKeys →
      (((logKeys.map VKey.name).dedup.length = 1 ∧
        (logKeys.map VKey.name).dedup.headD [] = origin) ↔
      ∀ v ∈ logVkeys, ∀ key, parseVkey sha256 true v = .ok key → key.name = origin) := by
    intro logKeys hne hlogKeys
    have hall := Except.mapM_eq_ok.mp hlogKeys
    have hne' : logKeys.map VKey.name ≠ [] := by
      intro hnil
      rw [List.map_eq_nil_iff] at hnil
      rw [hnil, List.forall₂_nil_right_iff] at hall
      exact hne hall
    rw [dedup_eq_singleton_iff hne', List.forall_mem_map]
    constructor
    . intro h v hv key hkey
      rcases List.exists_of_mem_left hall hv with ⟨key', hmem, hkey'⟩
      rw [hkey, Except.ok.injEq] at hkey'
      exact hkey' ▸ h key' hmem
    . intro h key hmem
      rcases List.exists_of_mem_right hall hmem with ⟨v, hv, hkey⟩
      exact h v hv key hkey
  constructor
  . intro h
    rcases exists_logKeys h.log_keys with ⟨logKeys, hlogKeys, htyps⟩
    have husable := usableWitnesses_eq_ok.mpr ⟨h.witness_keys, rfl⟩
    have hparse : ∀ v ∈ logVkeys ++ witnessVkeys.filter (fun v =>
        match parseVkey sha256 false v with
        | .ok key => key.typ ∈ witnessTypes
        | .error _ => false), ∃ key, parseVkey sha256 false v = .ok key := by
      intro v hv
      rcases List.mem_append.mp hv with hv | hv
      . rcases h.log_keys v hv with ⟨key, hkey, _⟩
        exact ⟨key, parseVkey_of_strict hkey⟩
      . rcases h.witness_keys v (List.mem_filter.mp hv).1 with ⟨key, hkey, _⟩
        exact ⟨key, hkey⟩
    have htrusted := @exists_parse_iff_trusted sha256 logVkeys witnessVkeys _ h.log_keys husable
    rcases knownKeys_go_isOk Dict.empty 0 hparse (by simp) (by
      intro v hv v' hv' key key' hkey hkey' htyp htyp'
      exact h.no_clash key key' (htrusted.mp ⟨v, hv, hkey, htyp⟩)
        (htrusted.mp ⟨v', hv', hkey', htyp'⟩)) with ⟨⟨known, ignored⟩, hknown⟩
    refine ⟨logKeys, _, known, ignored, h.minWitnesses_pos, h.clockSkew_nonneg, h.logVkeys_ne_nil,
      hlogKeys, htyps, ?_, ?_, husable, hknown⟩
    . intro hnone
      rcases h.origin_eq with hsome | ⟨_, hall⟩
      . rw [hnone] at hsome
        simp at hsome
      . exact ((hnames logKeys h.logVkeys_ne_nil hlogKeys).mpr hall).1
    . rcases h.origin_eq with hsome | ⟨hnone, hall⟩
      . rw [hsome, Option.getD_some]
      . rw [hnone, Option.getD_none]
        exact ((hnames logKeys h.logVkeys_ne_nil hlogKeys).mpr hall).2
  . rintro ⟨logKeys, usable, known, ignored, h⟩
    refine ⟨h.minWitnesses_pos, h.clockSkew_nonneg, h.logVkeys_ne_nil, h.log_keys,
      (usableWitnesses_eq_ok.mp h.usable_eq).1, ?_, ?_⟩
    . have horigin := h.origin_eq
      cases hexpected : p.expectedOrigin with
      | some expected =>
        rw [hexpected, Option.getD_some] at horigin
        exact Or.inl (congrArg some horigin)
      | none =>
        rw [hexpected, Option.getD_none] at horigin
        exact Or.inr ⟨rfl, (hnames logKeys h.logVkeys_ne_nil h.logKeys_eq).mp
          ⟨h.names_eq hexpected, horigin⟩⟩
    . rintro ⟨name, kid, typ, pub⟩ ⟨name', kid', typ', pub'⟩ hkey hkey' hname hkid
      simp only at hname hkid
      subst hname hkid
      have hget := h.known_iff.mpr hkey
      rw [h.known_iff.mpr hkey', Option.some.injEq, Prod.mk.injEq] at hget
      rw [hget.1, hget.2]

/-!
### The verdict
-/

theorem verifiedBy_iff {logVkeys witnessVkeys usable : List Str} {p : Policy} {origin : Str}
    {logKeys : List VKey} {known : KnownKeys} {ignored : Nat}
    (h : Prepared sha256 logVkeys witnessVkeys p origin logKeys usable known ignored) {ed : Scheme}
    {text : Str} {sig : Str × Bytes} {s : Verified}
    : VerifiedBy crypto ed known text sig s ↔
        ∃ key t, Trusted sha256 logVkeys witnessVkeys key ∧ Signs crypto ed text key sig t ∧
          s = ⟨key.name, key.typ, t⟩ := by
  constructor
  . rintro ⟨typ, pub, t, hget, hcheck, rfl⟩
    exact ⟨⟨sig.1, sig.2.take 4, typ, pub⟩, t, h.known_iff.mp hget, ⟨⟨rfl, rfl⟩, hcheck⟩, rfl⟩
  . rintro ⟨⟨name, kid, typ, pub⟩, t, hkey, ⟨⟨hname, hkid⟩, hcheck⟩, rfl⟩
    simp only at hname hkid hcheck
    subst hname hkid
    exact ⟨typ, pub, t, h.known_iff.mpr hkey, hcheck, rfl⟩

theorem harmless_iff {logVkeys witnessVkeys usable : List Str} {p : Policy} {origin : Str}
    {logKeys : List VKey} {known : KnownKeys} {ignored : Nat}
    (h : Prepared sha256 logVkeys witnessVkeys p origin logKeys usable known ignored) {ed : Scheme}
    {text : Str} {sig : Str × Bytes}
    : Harmless crypto ed known text sig ↔
        ∀ key, Trusted sha256 logVkeys witnessVkeys key → LineOf sig key →
          ∃ t, Signs crypto ed text key sig t := by
  constructor
  . rintro hharmless ⟨name, kid, typ, pub⟩ hkey ⟨hname, hkid⟩
    simp only at hname hkid
    subst hname hkid
    have hget := h.known_iff.mpr hkey
    rcases hharmless with hnone | ⟨s, typ', pub', t, hget', hcheck, _⟩
    . rw [hget] at hnone
      simp at hnone
    . rw [hget, Option.some.injEq, Prod.mk.injEq] at hget'
      rcases hget' with ⟨rfl, rfl⟩
      exact ⟨t, ⟨rfl, rfl⟩, hcheck⟩
  . intro hall
    rcases hget : known.get? (sig.1, sig.2.take 4) with _ | ⟨typ, pub⟩
    . exact Or.inl hget
    . rcases hall _ (h.known_iff.mp hget) ⟨rfl, rfl⟩ with ⟨t, _, hcheck⟩
      exact Or.inr ⟨_, typ, pub, t, hget, hcheck, rfl⟩

theorem countWitnesses_verdict (clock : Int) (p : Policy) (wits : List (Str × Nat))
    (hout : out.verdict = .notValid)
    : (countWitnesses clock p wits out).verdict = .ok ↔
        p.minWitnesses ≤ wits.length ∧ ∀ maxAge, p.maxAge = some maxAge →
          p.minWitnesses ≤ (wits.filter fun w => p.now.getD clock - w.2 ≤ maxAge &&
            !(p.now.getD clock + p.clockSkew < w.2)).length := by
  unfold countWitnesses
  dsimp only
  split
  . next hfew =>
    simp only [hout, reduceCtorEq, false_iff, not_and]
    intro hle
    omega
  . next henough =>
    rw [and_iff_right (by omega)]
    split
    . next hnone => simp [hnone]
    . next maxAge hmaxAge =>
      simp only [hmaxAge, Option.some.injEq, forall_eq', List.filter_filter]
      split
      . next hfew =>
        simp only [hout, reduceCtorEq, false_iff]
        omega
      . next hfresh =>
        simp only [true_iff]
        omega

/--
Cosignatures state a time.
-/
theorem timestamp_of_checkBody {ed : Scheme} {text name : Str} {typ : Nat} {pub body : Bytes}
    {t : Option Nat} (htyp : typ ∈ witnessTypes)
    (h : checkBody crypto ed text name typ pub body = .good t) : ∃ n, t = some n := by
  have hne : typ ≠ typeEd25519 ∧ typ ≠ typeEcdsa := by
    revert htyp
    simp only [witnessTypes, List.mem_cons, List.not_mem_nil, or_false]
    rintro (rfl | rfl) <;> decide
  unfold checkBody at h
  rw [if_neg hne.1, if_neg hne.2] at h
  dsimp only at h
  split at h
  . split at h
    . simp at h
    . split at h
      . simp at h
      . split at h
        . simp at h
        . split at h
          . exact ⟨_, (Check.good.inj h).symm⟩
          . simp at h
  . split at h
    . simp at h
    . split at h
      . exact ⟨_, (Check.good.inj h).symm⟩
      . simp at h

section

variable {logVkeys witnessVkeys usable : List Str} {p : Policy} {origin : Str} {logKeys : List VKey}
  {known : KnownKeys} {ignored : Nat} {ed : Scheme} {text : Str} {sigs : List (Str × Bytes)}

theorem get?_newest_iff
    (h : Prepared sha256 logVkeys witnessVkeys p origin logKeys usable known ignored)
    (hok : (noteResult text ignored (verifySigs crypto ed known text .start sigs)).verdict = .ok)
    {name : Str} {t : Nat}
    : (newestCosignatures
          (noteResult text ignored (verifySigs crypto ed known text .start sigs)).verified).get? name
        = some t ↔
      IsGreatest {u | CosignedAt sha256 crypto logVkeys witnessVkeys ed text sigs name u} t := by
  rw [get?_newestCosignatures]
  have hset : ∀ u, (∃ s ∈ (noteResult text ignored
        (verifySigs crypto ed known text .start sigs)).verified,
      s.typ ∈ witnessTypes ∧ s.name = name ∧ s.timestamp.getD 0 = u) ↔
      CosignedAt sha256 crypto logVkeys witnessVkeys ed text sigs name u := by
    intro u
    constructor
    . rintro ⟨s, hs, htyp, hname, ht⟩
      rcases (mem_noteResult_verified hok s).mp hs with ⟨sig, hsig, hby⟩
      rcases (verifiedBy_iff h).mp hby with ⟨key, t, hkey, hsigns, rfl⟩
      rcases timestamp_of_checkBody htyp hsigns.2 with ⟨n, rfl⟩
      exact ⟨sig, hsig, key, hkey, htyp, hname, by rw [← ht]; exact hsigns⟩
    . rintro ⟨sig, hsig, key, hkey, htyp, hname, hsigns⟩
      exact ⟨⟨key.name, key.typ, some u⟩, (mem_noteResult_verified hok _).mpr
        ⟨sig, hsig, (verifiedBy_iff h).mpr ⟨key, some u, hkey, hsigns, rfl⟩⟩, htyp, hname, rfl⟩
  simp only [hset]

theorem hasLogSignature_iff
    (h : Prepared sha256 logVkeys witnessVkeys p origin logKeys usable known ignored)
    (hok : (noteResult text ignored (verifySigs crypto ed known text .start sigs)).verdict = .ok)
    : hasLogSignature (logKeys.map VKey.name).dedup
          (noteResult text ignored (verifySigs crypto ed known text .start sigs)).verified = true ↔
        ∃ sig ∈ sigs, ∃ key, Trusted sha256 logVkeys witnessVkeys key ∧ key.typ ∈ logKeyTypes ∧
          ∃ t, Signs crypto ed text key sig t := by
  simp only [hasLogSignature, List.any_eq_true, Bool.and_eq_true, decide_eq_true_eq]
  constructor
  . rintro ⟨s, hs, _, htyp⟩
    rcases (mem_noteResult_verified hok s).mp hs with ⟨sig, hsig, hby⟩
    rcases (verifiedBy_iff h).mp hby with ⟨key, t, hkey, hsigns, rfl⟩
    exact ⟨sig, hsig, key, hkey, htyp, t, hsigns⟩
  . rintro ⟨sig, hsig, key, hkey, htyp, t, hsigns⟩
    refine ⟨⟨key.name, key.typ, t⟩, (mem_noteResult_verified hok _).mpr
      ⟨sig, hsig, (verifiedBy_iff h).mpr ⟨key, t, hkey, hsigns, rfl⟩⟩, ?_, htyp⟩
    rcases hkey with ⟨v, hv, hparse⟩ | ⟨_, _, _, hwitness⟩
    . rcases List.exists_of_mem_left (Except.mapM_eq_ok.mp h.logKeys_eq) hv with ⟨key', hmem, hkey'⟩
      rw [hparse, Except.ok.injEq] at hkey'
      exact List.mem_dedup.mpr (List.mem_map.mpr ⟨key', hmem, by rw [hkey']⟩)
    . exact absurd hwitness (not_witness_of_log htyp)

/--
The last step of the check, once every line of a trusted key is verified.
-/
theorem countWitnesses_iff (clock : Int) (out : Witnessed)
    (h : Prepared sha256 logVkeys witnessVkeys p origin logKeys usable known ignored)
    (hok : (noteResult text ignored (verifySigs crypto ed known text .start sigs)).verdict = .ok)
    (hout : out.verdict = .notValid)
    : (countWitnesses clock p (newestCosignatures
          (noteResult text ignored (verifySigs crypto ed known text .start sigs)).verified).items
          out).verdict = .ok ↔
        (AtLeast p.minWitnesses fun name =>
          ∃ t, CosignedAt sha256 crypto logVkeys witnessVkeys ed text sigs name t) ∧
        ∀ maxAge, p.maxAge = some maxAge → AtLeast p.minWitnesses fun name => ∃ t : Nat,
          IsGreatest {u | CosignedAt sha256 crypto logVkeys witnessVkeys ed text sigs name u} t ∧
            p.now.getD clock - maxAge ≤ t ∧ t ≤ p.now.getD clock + p.clockSkew := by
  have hall := atLeast_filter_iff (k := p.minWitnesses) (newestCosignatures
    (noteResult text ignored (verifySigs crypto ed known text .start sigs)).verified)
  rw [countWitnesses_verdict clock p _ hout]
  have hcount := hall fun _ => true
  rw [List.filter_true] at hcount
  rw [hcount]
  simp only [hall, get?_newest_iff h hok, and_true]
  have hexists : ∀ name, (∃ t, IsGreatest
      {u | CosignedAt sha256 crypto logVkeys witnessVkeys ed text sigs name u} t) ↔
      ∃ t, CosignedAt sha256 crypto logVkeys witnessVkeys ed text sigs name t := by
    intro name
    constructor
    . rintro ⟨t, ht⟩
      exact ⟨t, ht.1⟩
    . rintro ⟨t, sig, hsig, key, hkey, htyp, rfl, hsigns⟩
      have hmem := (mem_noteResult_verified hok ⟨key.name, key.typ, some t⟩).mpr
        ⟨sig, hsig, (verifiedBy_iff h).mpr ⟨key, some t, hkey, hsigns, rfl⟩⟩
      rcases exists_get?_newestCosignatures hmem htyp with ⟨newest, hnewest⟩
      exact ⟨newest, (get?_newest_iff h hok).mp hnewest⟩
  rw [atLeast_congr hexists]
  refine and_congr_right fun _ => forall₂_congr fun maxAge _ => atLeast_congr fun name => ?_
  refine exists_congr fun t => and_congr_right fun _ => ?_
  simp only [Bool.and_eq_true, decide_eq_true_eq, Bool.not_eq_true', decide_eq_false_iff_not]
  omega

end

theorem satisfied_iff {clock : Int} {note : Bytes} {logVkeys witnessVkeys : List Str} {p : Policy}
    : Satisfied sha256 crypto clock note logVkeys witnessVkeys p ↔
        ∃ origin, Configured sha256 logVkeys witnessVkeys p origin ∧
          ∃ ed text lines sigs, crypto.ed25519 = some ed ∧ IsNote note text lines sigs ∧
            Quorum sha256 crypto clock logVkeys witnessVkeys p origin ed text sigs := by
  constructor
  . rintro ⟨out, h, hverdict⟩
    unfold verifyWitnessed at h
    split at h
    . simp at h
    . next hmin =>
      split at h
      . simp at h
      . next hskew =>
        split at h
        . simp at h
        . next hne =>
          rcases Except.bind_eq_ok.mp h with ⟨logKeys, hlogKeys, h⟩
          split at h
          . simp at h
          . next htyps =>
            dsimp only at h
            split at h
            . simp at h
            . next hnames =>
              rcases Except.bind_eq_ok.mp h with ⟨usable, husable, h⟩
              rcases Except.bind_eq_ok.mp h with ⟨v, hv, h⟩
              split at h
              . next hnot =>
                rw [← Except.pure_eq_ok.mp h] at hverdict
                exact absurd hverdict hnot
              . next hok =>
                rw [Decidable.not_not] at hok
                rcases (verifyNote_eq_ok hok).mp hv with
                  ⟨known, ignored, ed, text, lines, sigs, hknown, hed, hnote, rfl⟩
                have hprepared : Prepared sha256 logVkeys witnessVkeys p
                    (p.expectedOrigin.getD ((logKeys.map VKey.name).dedup.headD [])) logKeys usable
                    known ignored :=
                  { minWitnesses_pos := Int.not_lt.mp hmin
                    clockSkew_nonneg := Int.not_lt.mp hskew
                    logVkeys_ne_nil := by simpa using hne
                    logKeys_eq := hlogKeys
                    logKeys_typ := by simpa using htyps
                    names_eq := fun hnone => by simpa [hnone] using hnames
                    origin_eq := rfl
                    usable_eq := husable
                    known_eq := hknown }
                rcases noteResult_ok_iff.mp hok with ⟨hharmless, _⟩
                split at h
                . rw [← Except.pure_eq_ok.mp h] at hverdict
                  simp [Witnessed.start] at hverdict
                . next hlog =>
                  split at h
                  . rw [← Except.pure_eq_ok.mp h] at hverdict
                    simp [Witnessed.start] at hverdict
                  . next cp hcp =>
                    rw [noteResult_text, Option.getD_some] at hcp
                    split at h
                    . rw [← Except.pure_eq_ok.mp h] at hverdict
                      simp [Witnessed.start] at hverdict
                    . next horigin =>
                      rw [← Except.pure_eq_ok.mp h, countWitnesses_iff clock _ hprepared hok rfl]
                        at hverdict
                      rw [Bool.not_eq_true, Bool.not_eq_false',
                        hasLogSignature_iff hprepared hok] at hlog
                      exact ⟨_, configured_iff.mpr ⟨_, _, _, _, hprepared⟩, ed, text, lines, sigs,
                        hed, hnote, fun sig hsig => (harmless_iff hprepared).mp (hharmless sig hsig),
                        hlog, ⟨cp, hcp, Decidable.not_not.mp horigin⟩, hverdict.1, hverdict.2⟩
  . rintro ⟨origin, hconfigured, ed, text, lines, sigs, hed, hnote, hquorum⟩
    rcases configured_iff.mp hconfigured with ⟨logKeys, usable, known, ignored, h⟩
    rcases hquorum.checkpoint with ⟨cp, hcp, horigin⟩
    rcases hquorum.log_line with ⟨sig, hsig, key, hkey, _, t, hsigns⟩
    have hok : (noteResult text ignored (verifySigs crypto ed known text .start sigs)).verdict = .ok :=
      noteResult_ok_iff.mpr ⟨fun sig hsig => (harmless_iff h).mpr (hquorum.trusted_verify sig hsig),
        sig, hsig, _, (verifiedBy_iff h).mpr ⟨key, t, hkey, hsigns, rfl⟩⟩
    have hv : verifyNote sha256 crypto note (logVkeys ++ usable)
        = .ok (noteResult text ignored (verifySigs crypto ed known text .start sigs)) :=
      (verifyNote_eq_ok hok).mpr ⟨known, ignored, ed, text, lines, sigs, h.known_eq, hed, hnote, rfl⟩
    have hne := h.logVkeys_ne_nil
    have htyps : (logKeys.any fun key => key.typ ∉ logKeyTypes) = false := by
      simpa using h.logKeys_typ
    have hnames : ¬(p.expectedOrigin.isNone = true ∧ (logKeys.map VKey.name).dedup.length ≠ 1) := by
      rintro ⟨hnone, hlen⟩
      exact hlen (h.names_eq (Option.isNone_iff_eq_none.mp hnone))
    refine ⟨_, ?_, (countWitnesses_iff clock { Witnessed.start with checkpoint := some cp } h hok
      rfl).mpr ⟨hquorum.witnesses, hquorum.fresh⟩⟩
    unfold verifyWitnessed
    rw [if_neg (Int.not_lt.mpr h.minWitnesses_pos), if_neg (Int.not_lt.mpr h.clockSkew_nonneg),
      if_neg (by simpa using hne), h.logKeys_eq, Except.ok_bind, htyps, if_neg Bool.false_ne_true]
    dsimp only
    rw [if_neg hnames, h.usable_eq, Except.ok_bind, hv, Except.ok_bind, if_neg (not_not.mpr hok),
      (hasLogSignature_iff h hok).mpr hquorum.log_line, if_neg (by decide), noteResult_text,
      Option.getD_some, hcp]
    dsimp only
    rw [h.origin_eq, if_neg (not_not.mpr horigin)]
    rfl

/-!
### What changes nothing
-/

section

variable {clock : Int} {note note' : Bytes} {logVkeys witnessVkeys witnessVkeys' : List Str}
  {p : Policy} {text : Str} {lines lines' : List Str} {sigs sigs' : List (Str × Bytes)}

theorem satisfied_note_iff (hnote : IsNote note text lines sigs)
    : Satisfied sha256 crypto clock note logVkeys witnessVkeys p ↔
        ∃ origin, Configured sha256 logVkeys witnessVkeys p origin ∧
          ∃ ed, crypto.ed25519 = some ed ∧
            Quorum sha256 crypto clock logVkeys witnessVkeys p origin ed text sigs := by
  rw [satisfied_iff]
  constructor
  . rintro ⟨origin, hconfigured, ed, text', lines', sigs', hed, hnote', hquorum⟩
    rcases hnote.unique hnote' with ⟨rfl, rfl, rfl⟩
    exact ⟨origin, hconfigured, ed, hed, hquorum⟩
  . rintro ⟨origin, hconfigured, ed, hed, hquorum⟩
    exact ⟨origin, hconfigured, ed, text, lines, sigs, hed, hnote, hquorum⟩

variable (sha256) in
/--
Both notes have the same lines of trusted keys.
-/
def SameTrusted (logVkeys witnessVkeys : List Str) (sigs sigs' : List (Str × Bytes)) : Prop :=
  ∀ key, Trusted sha256 logVkeys witnessVkeys key → ∀ sig, LineOf sig key → (sig ∈ sigs ↔ sig ∈ sigs')

theorem SameTrusted.symm (h : SameTrusted sha256 logVkeys witnessVkeys sigs sigs')
    : SameTrusted sha256 logVkeys witnessVkeys sigs' sigs :=
  fun key hkey sig hline => (h key hkey sig hline).symm

theorem cosignedAt_congr (h : SameTrusted sha256 logVkeys witnessVkeys sigs sigs') {ed : Scheme}
    {name : Str} {t : Nat}
    : CosignedAt sha256 crypto logVkeys witnessVkeys ed text sigs name t ↔
        CosignedAt sha256 crypto logVkeys witnessVkeys ed text sigs' name t := by
  constructor
  . rintro ⟨sig, hsig, key, hkey, htyp, hname, hsigns⟩
    exact ⟨sig, (h key hkey sig hsigns.1).mp hsig, key, hkey, htyp, hname, hsigns⟩
  . rintro ⟨sig, hsig, key, hkey, htyp, hname, hsigns⟩
    exact ⟨sig, (h key hkey sig hsigns.1).mpr hsig, key, hkey, htyp, hname, hsigns⟩

theorem Quorum.with_lines {ed : Scheme} {origin : Str}
    (hquorum : Quorum sha256 crypto clock logVkeys witnessVkeys p origin ed text sigs)
    (h : SameTrusted sha256 logVkeys witnessVkeys sigs sigs')
    : Quorum sha256 crypto clock logVkeys witnessVkeys p origin ed text sigs' where
  trusted_verify := fun sig hsig key hkey hline =>
    hquorum.trusted_verify sig ((h key hkey sig hline).mpr hsig) key hkey hline
  log_line := by
    rcases hquorum.log_line with ⟨sig, hsig, key, hkey, htyp, t, hsigns⟩
    exact ⟨sig, (h key hkey sig hsigns.1).mp hsig, key, hkey, htyp, t, hsigns⟩
  checkpoint := hquorum.checkpoint
  witnesses := by simpa only [cosignedAt_congr h] using hquorum.witnesses
  fresh := by simpa only [cosignedAt_congr h] using hquorum.fresh

theorem satisfied_congr_lines (hnote : IsNote note text lines sigs)
    (hnote' : IsNote note' text lines' sigs')
    (h : SameTrusted sha256 logVkeys witnessVkeys sigs sigs')
    : Satisfied sha256 crypto clock note logVkeys witnessVkeys p ↔
        Satisfied sha256 crypto clock note' logVkeys witnessVkeys p := by
  rw [satisfied_note_iff hnote, satisfied_note_iff hnote']
  refine exists_congr fun origin => and_congr_right fun _ => ?_
  refine exists_congr fun ed => and_congr_right fun _ => ?_
  exact ⟨fun hquorum => hquorum.with_lines h, fun hquorum => hquorum.with_lines h.symm⟩

variable (sha256) in
/--
The witness keys are the same but for one more, which cosigns and shares its name and id with no
other one.
-/
structure Extends (logVkeys witnessVkeys witnessVkeys' : List Str) (v : Str) (key : VKey) : Prop where
  mem_iff : ∀ v', v' ∈ witnessVkeys' ↔ v' = v ∨ v' ∈ witnessVkeys
  parse_eq : parseVkey sha256 false v = .ok key
  typ_mem : key.typ ∈ witnessTypes
  no_clash : ∀ key', Trusted sha256 logVkeys witnessVkeys key' → key'.name = key.name →
    key'.kid = key.kid → key' = key

section

variable {v : Str} {key : VKey}

theorem Extends.trusted_iff (h : Extends sha256 logVkeys witnessVkeys witnessVkeys' v key)
    {key' : VKey}
    : Trusted sha256 logVkeys witnessVkeys' key' ↔
        key' = key ∨ Trusted sha256 logVkeys witnessVkeys key' := by
  simp only [Trusted, h.mem_iff]
  constructor
  . rintro (hlog | ⟨v', rfl | hv', hparse, htyp⟩)
    . exact Or.inr (Or.inl hlog)
    . exact Or.inl (Except.ok.inj (hparse.symm.trans h.parse_eq))
    . exact Or.inr (Or.inr ⟨v', hv', hparse, htyp⟩)
  . rintro (rfl | hlog | ⟨v', hv', hkey⟩)
    . exact Or.inr ⟨v, Or.inl rfl, h.parse_eq, h.typ_mem⟩
    . exact Or.inl hlog
    . exact Or.inr ⟨v', Or.inr hv', hkey⟩

theorem Extends.configured_iff (h : Extends sha256 logVkeys witnessVkeys witnessVkeys' v key)
    {origin : Str}
    : Configured sha256 logVkeys witnessVkeys' p origin ↔
        Configured sha256 logVkeys witnessVkeys p origin := by
  constructor
  . intro hc
    exact { hc with
      witness_keys := fun v' hv' => hc.witness_keys v' ((h.mem_iff v').mpr (Or.inr hv'))
      no_clash := fun key₁ key₂ h₁ h₂ => hc.no_clash key₁ key₂ (h.trusted_iff.mpr (Or.inr h₁))
        (h.trusted_iff.mpr (Or.inr h₂)) }
  . intro hc
    refine { hc with witness_keys := ?_, no_clash := ?_ }
    . intro v' hv'
      rcases (h.mem_iff v').mp hv' with rfl | hv'
      . exact ⟨key, h.parse_eq, fun hlog => not_witness_of_log hlog h.typ_mem⟩
      . exact hc.witness_keys v' hv'
    . intro key₁ key₂ h₁ h₂ hname hkid
      rcases h.trusted_iff.mp h₁ with rfl | h₁ <;> rcases h.trusted_iff.mp h₂ with rfl | h₂
      . rfl
      . exact (h.no_clash key₂ h₂ hname.symm hkid.symm).symm
      . exact h.no_clash key₁ h₁ hname hkid
      . exact hc.no_clash key₁ key₂ h₁ h₂ hname hkid

variable (sha256 crypto) in
/--
Every line of the key is good, and the witness has a cosignature with another key that is as new.
-/
def Covered (logVkeys witnessVkeys : List Str) (ed : Scheme) (text : Str) (sigs : List (Str × Bytes))
    (key : VKey) : Prop :=
  ∀ sig ∈ sigs, LineOf sig key → ∃ t t', Signs crypto ed text key sig (some t) ∧ t ≤ t' ∧
    CosignedAt sha256 crypto logVkeys witnessVkeys ed text sigs key.name t'

variable {ed : Scheme} {name : Str}

theorem Extends.cosignedAt_mono (h : Extends sha256 logVkeys witnessVkeys witnessVkeys' v key) {t : Nat}
    (ht : CosignedAt sha256 crypto logVkeys witnessVkeys ed text sigs name t)
    : CosignedAt sha256 crypto logVkeys witnessVkeys' ed text sigs name t := by
  rcases ht with ⟨sig, hsig, key', hkey', hrest⟩
  exact ⟨sig, hsig, key', h.trusted_iff.mpr (Or.inr hkey'), hrest⟩

theorem Extends.exists_ge (h : Extends sha256 logVkeys witnessVkeys witnessVkeys' v key)
    (hcovered : Covered sha256 crypto logVkeys witnessVkeys ed text sigs key) {t : Nat}
    (ht : CosignedAt sha256 crypto logVkeys witnessVkeys' ed text sigs name t)
    : ∃ t', t ≤ t' ∧ CosignedAt sha256 crypto logVkeys witnessVkeys ed text sigs name t' := by
  rcases ht with ⟨sig, hsig, key', hkey', htyp, rfl, hsigns⟩
  rcases h.trusted_iff.mp hkey' with rfl | hold
  . rcases hcovered sig hsig hsigns.1 with ⟨u, t', hsigns', hle, ht'⟩
    have heq := hsigns.2.symm.trans hsigns'.2
    rw [Check.good.injEq, Option.some.injEq] at heq
    exact ⟨t', heq ▸ hle, ht'⟩
  . exact ⟨t, le_rfl, sig, hsig, key', hold, htyp, rfl, hsigns⟩

/--
The witnesses are the same ones, and so is the newest timestamp of each.
-/
theorem Extends.isGreatest_iff (h : Extends sha256 logVkeys witnessVkeys witnessVkeys' v key)
    (hcovered : Covered sha256 crypto logVkeys witnessVkeys ed text sigs key) {t : Nat}
    : IsGreatest {u | CosignedAt sha256 crypto logVkeys witnessVkeys' ed text sigs name u} t ↔
        IsGreatest {u | CosignedAt sha256 crypto logVkeys witnessVkeys ed text sigs name u} t := by
  constructor
  . rintro ⟨hin, hle⟩
    rcases h.exists_ge hcovered hin with ⟨t', hge, ht'⟩
    have heq : t' = t := le_antisymm (hle (h.cosignedAt_mono ht')) hge
    exact ⟨heq ▸ ht', fun u hu => hle (h.cosignedAt_mono hu)⟩
  . rintro ⟨hin, hle⟩
    refine ⟨h.cosignedAt_mono hin, fun u hu => ?_⟩
    rcases h.exists_ge hcovered hu with ⟨t', hge, ht'⟩
    exact hge.trans (hle ht')

theorem Extends.quorum_iff (h : Extends sha256 logVkeys witnessVkeys witnessVkeys' v key)
    (hcovered : Covered sha256 crypto logVkeys witnessVkeys ed text sigs key) {origin : Str}
    : Quorum sha256 crypto clock logVkeys witnessVkeys' p origin ed text sigs ↔
        Quorum sha256 crypto clock logVkeys witnessVkeys p origin ed text sigs := by
  have hexists : ∀ name,
      (∃ t, CosignedAt sha256 crypto logVkeys witnessVkeys' ed text sigs name t) ↔
      ∃ t, CosignedAt sha256 crypto logVkeys witnessVkeys ed text sigs name t := by
    intro name
    constructor
    . rintro ⟨t, ht⟩
      rcases h.exists_ge hcovered ht with ⟨t', _, ht'⟩
      exact ⟨t', ht'⟩
    . rintro ⟨t, ht⟩
      exact ⟨t, h.cosignedAt_mono ht⟩
  constructor
  . intro hq
    refine ⟨?_, ?_, hq.checkpoint, (atLeast_congr hexists).mp hq.witnesses, ?_⟩
    . exact fun sig hsig key' hkey' => hq.trusted_verify sig hsig key' (h.trusted_iff.mpr (Or.inr hkey'))
    . rcases hq.log_line with ⟨sig, hsig, key', hkey', htyp, hsigns⟩
      rcases h.trusted_iff.mp hkey' with rfl | hkey'
      . exact absurd h.typ_mem (not_witness_of_log htyp)
      . exact ⟨sig, hsig, key', hkey', htyp, hsigns⟩
    . simpa only [h.isGreatest_iff hcovered] using hq.fresh
  . intro hq
    refine ⟨?_, ?_, hq.checkpoint, (atLeast_congr hexists).mpr hq.witnesses, ?_⟩
    . intro sig hsig key' hkey' hline
      rcases h.trusted_iff.mp hkey' with rfl | hkey'
      . rcases hcovered sig hsig hline with ⟨t, _, hsigns, _⟩
        exact ⟨some t, hsigns⟩
      . exact hq.trusted_verify sig hsig key' hkey' hline
    . rcases hq.log_line with ⟨sig, hsig, key', hkey', hrest⟩
      exact ⟨sig, hsig, key', h.trusted_iff.mpr (Or.inr hkey'), hrest⟩
    . simpa only [h.isGreatest_iff hcovered] using hq.fresh

theorem satisfied_congr_keys (h : Extends sha256 logVkeys witnessVkeys witnessVkeys' v key)
    (hnote : IsNote note text lines sigs)
    (hcovered : ∀ ed, crypto.ed25519 = some ed →
      Covered sha256 crypto logVkeys witnessVkeys ed text sigs key)
    : Satisfied sha256 crypto clock note logVkeys witnessVkeys p ↔
        Satisfied sha256 crypto clock note logVkeys witnessVkeys' p := by
  rw [satisfied_note_iff hnote, satisfied_note_iff hnote]
  refine exists_congr fun origin => and_congr h.configured_iff.symm ?_
  exact exists_congr fun ed => and_congr_right fun hed => (h.quorum_iff (hcovered ed hed)).symm

end

end

end

/--
The check finds a note good if and only if there is a quorum in the lines of trusted keys. Other
lines, the order of the lines and repeated ones are the same to it, and so is a second key of a
witness that has cosigned with the first one.
-/
theorem verifyWitnessed_exact (sha256 : HashFn 32) (crypto : Crypto) (clock : Int)
    (logVkeys witnessVkeys : List Str) (p : Policy)
    : (∀ note, Satisfied sha256 crypto clock note logVkeys witnessVkeys p ↔
        ∃ origin, Configured sha256 logVkeys witnessVkeys p origin ∧
          ∃ ed text lines sigs, crypto.ed25519 = some ed ∧ IsNote note text lines sigs ∧
            Quorum sha256 crypto clock logVkeys witnessVkeys p origin ed text sigs) ∧
      (∀ note note' text lines lines' sigs sigs', IsNote note text lines sigs →
        IsNote note' text lines' sigs' → SameTrusted sha256 logVkeys witnessVkeys sigs sigs' →
        (Satisfied sha256 crypto clock note logVkeys witnessVkeys p ↔
          Satisfied sha256 crypto clock note' logVkeys witnessVkeys p)) ∧
      (∀ note text lines sigs witnessVkeys' v key, IsNote note text lines sigs →
        Extends sha256 logVkeys witnessVkeys witnessVkeys' v key →
        (∀ ed, crypto.ed25519 = some ed →
          Covered sha256 crypto logVkeys witnessVkeys ed text sigs key) →
        (Satisfied sha256 crypto clock note logVkeys witnessVkeys p ↔
          Satisfied sha256 crypto clock note logVkeys witnessVkeys' p)) :=
  ⟨fun _ => satisfied_iff, fun _ _ _ _ _ _ _ hnote hnote' h => satisfied_congr_lines hnote hnote' h,
    fun _ _ _ _ _ _ _ hnote h hcovered => satisfied_congr_keys h hnote hcovered⟩

/-!
### A second key that does not verify
-/

def examplePolicy : Policy := ⟨1, none, none, 0, none⟩

def exampleWitnessVkey (pub : Bytes) : Str :=
  exampleKeys.name ++ plus :: (Hex.ofBytes (keyId sha256 exampleKeys.name typeCosigV1 pub) ++
    plus :: Base64.encode (0x04 :: pub))

/--
A line of the log, a cosignature, and a line of another key of the witness that is cut short.
-/
def exampleCosigned : Bytes :=
  utf8 (render (textOf (exampleCheckpoint [[0x61]])) [exampleLogLine,
    signatureLine exampleKeys.name (cosigRaw sha256 exampleScheme exampleKeys.name exampleSeed 1
      (textOf (exampleCheckpoint [[0x61]]))),
    signatureLine exampleKeys.name (keyId sha256 exampleKeys.name typeCosigV1 exampleLogKey ++ [0x00])])

theorem not_satisfied_secondKey
    : Satisfied sha256 exampleCrypto 0 exampleCosigned [exampleLogVkey]
          [exampleWitnessVkey exampleWitnessKey] examplePolicy ∧
        ¬Satisfied sha256 exampleCrypto 0 exampleCosigned [exampleLogVkey]
          [exampleWitnessVkey exampleWitnessKey, exampleWitnessVkey exampleLogKey] examplePolicy := by
  have hone : ((verifyWitnessed sha256 exampleCrypto 0 exampleCosigned [exampleLogVkey]
      [exampleWitnessVkey exampleWitnessKey] examplePolicy).map Witnessed.verdict).toOption
      = some .ok := by decide +kernel
  have htwo : ((verifyWitnessed sha256 exampleCrypto 0 exampleCosigned [exampleLogVkey]
      [exampleWitnessVkey exampleWitnessKey, exampleWitnessVkey exampleLogKey]
      examplePolicy).map Witnessed.verdict).toOption = some .notValid := by decide +kernel
  constructor
  . cases hout : verifyWitnessed sha256 exampleCrypto 0 exampleCosigned [exampleLogVkey]
      [exampleWitnessVkey exampleWitnessKey] examplePolicy with
    | error e =>
      rw [hout] at hone
      simp [Except.map, Except.toOption] at hone
    | ok out =>
      rw [hout] at hone
      exact ⟨out, hout, by simpa [Except.map, Except.toOption] using hone⟩
  . rintro ⟨out, hout, hverdict⟩
    rw [hout] at htwo
    simp [Except.map, Except.toOption, hverdict] at htwo

end Witness
end CryptoValid
