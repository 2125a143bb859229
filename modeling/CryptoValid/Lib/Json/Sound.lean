import CryptoValid.Lib.Json.Graph

/-!
This module contains the rule for facts about everything that the parser returns: a property of the
text that every token leaves to the text after it, and a property of values that the hooks
establish.
-/

namespace Json

section

variable {C : Str → Prop} (hskip : ∀ c s, c ≠ 0x5c → C (c :: s) → C s)

include hskip

theorem skip_append (word rest : Str) (hword : (0x5c : CodePoint) ∉ word) (h : C (word ++ rest))
    : C rest := by
  induction word with
  | nil => exact h
  | cons c word ih =>
    rw [List.mem_cons, not_or] at hword
    exact ih hword.2 (hskip c _ (Ne.symm hword.1) h)

theorem skip_skipSpace (s : Str) (h : C s) : C (skipSpace s) := by
  induction s with
  | nil => exact h
  | cons c s ih =>
    rw [skipSpace, List.dropWhile_cons]
    split
    . next hspace =>
      refine ih (hskip c s ?_ h)
      rintro rfl
      simp [isSpace] at hspace
    . exact h

end

theorem stripPrefix?_eq_some {word s rest : Str} (h : stripPrefix? word s = some rest)
    : s = word ++ rest := by
  rw [stripPrefix?] at h
  split at h
  . next hprefix =>
    rcases List.isPrefixOf_iff_prefix.mp hprefix with ⟨t, rfl⟩
    rw [List.drop_left, Option.some.injEq] at h
    rw [h]
  . simp at h

theorem Digits.not_mem {s : Str} (h : Digits s) : (0x5c : CodePoint) ∉ s := fun hmem => by
  have hdigit := h.2 _ hmem
  simp [isDigit] at hdigit

/--
A number's text is what is consumed, and no backslash is in it.
-/
theorem scanNumber?_append {s text rest : Str} {isFloat : Bool}
    (h : scanNumber? s = some (text, isFloat, rest))
    : s = text ++ rest ∧ (0x5c : CodePoint) ∉ text := by
  rcases scanNumber?_eq_some h with ⟨sign, digits, frac, exp, hs, rfl, hsign, hdigits, hfrac, hexp, _⟩
  refine ⟨hs, ?_⟩
  simp only [List.mem_append, not_or]
  refine ⟨⟨⟨?_, hdigits.not_mem⟩, ?_⟩, ?_⟩
  . rcases hsign with rfl | rfl <;> decide
  . rcases hfrac with rfl | ⟨ds, rfl, hds⟩
    . exact List.not_mem_nil
    . rw [List.mem_cons, not_or]
      exact ⟨by decide, hds.not_mem⟩
  . rcases hexp with rfl | ⟨e, sign, ds, rfl, he, hsign, hds⟩
    . exact List.not_mem_nil
    . rw [List.mem_cons, List.mem_append, not_or, not_or]
      refine ⟨?_, ?_, hds.not_mem⟩
      . rcases he with rfl | rfl <;> decide
      . rcases hsign with rfl | rfl | rfl <;> decide

/--
What a fact about everything that is parsed takes: `C` of the remaining text, `Q` of strings and `P`
of values, that may depend on how many levels there are below them.
-/
structure Invariant {ε : Type} (H : Hooks ε) (C Q : Str → Prop) (P : Nat → Json → Prop)
    : Prop where
  skip : ∀ c s, c ≠ 0x5c → C (c :: s) → C s
  string : ∀ s t rest, scanString H.lone s = some (t, rest) → C s → Q t ∧ C rest
  null : ∀ n, P n .null
  bool : ∀ n b, P n (.bool b)
  int : ∀ n text i, H.parseInt text = .ok i → P n (.int i)
  float : ∀ n text x, H.parseFloat text = .ok x → P n (.float x)
  constant : ∀ n text x, H.parseConstant text = .ok x → P n (.float x)
  str : ∀ n t, Q t → P n (.str t)
  arr : ∀ n xs, (∀ x ∈ xs, P n x) → P (n + 1) (.arr xs)
  obj : ∀ n ms ms', (∀ m ∈ ms, Q m.1 ∧ P n m.2) → H.objectPairs ms = .ok ms' →
    P (n + 1) (.obj ms')

section

variable {ε : Type} {H : Hooks ε} {C Q : Str → Prop} {P : Nat → Json → Prop}
  (inv : Invariant H C Q P)

include inv

theorem scanAtom_sound {s rest : Str} {v : Json} (h : scanAtom H s = .ok (v, rest)) (hs : C s)
    (n : Nat) : P n v ∧ C rest := by
  have hword : ∀ word tail : Str, (0x5c : CodePoint) ∉ word → stripPrefix? word s = some tail →
      C tail := by
    intro word tail hnot hstrip
    rw [stripPrefix?_eq_some hstrip] at hs
    exact skip_append inv.skip word tail hnot hs
  have hconstant : ∀ word tail : Str, (0x5c : CodePoint) ∉ word →
      stripPrefix? word s = some tail →
      (do return (.float (← H.parseConstant word), tail) : Except ε (Json × Str)) = .ok (v, rest) →
      P n v ∧ C rest := by
    intro word tail hnot hstrip heq
    rcases Except.bind_eq_ok.mp heq with ⟨x, hx, heq⟩
    rcases Prod.mk.inj (Except.pure_eq_ok.mp heq) with ⟨rfl, rfl⟩
    exact ⟨inv.constant n _ _ hx, hword word _ hnot hstrip⟩
  unfold scanAtom at h
  split at h
  . next tail hstrip =>
    rcases Prod.mk.inj (Except.ok.inj h) with ⟨rfl, rfl⟩
    exact ⟨inv.null n, hword _ _ (by decide) hstrip⟩
  split at h
  . next tail hstrip =>
    rcases Prod.mk.inj (Except.ok.inj h) with ⟨rfl, rfl⟩
    exact ⟨inv.bool n true, hword _ _ (by decide) hstrip⟩
  split at h
  . next tail hstrip =>
    rcases Prod.mk.inj (Except.ok.inj h) with ⟨rfl, rfl⟩
    exact ⟨inv.bool n false, hword _ _ (by decide) hstrip⟩
  split at h
  . next tail hstrip => exact hconstant _ _ (by decide) hstrip h
  split at h
  . next tail hstrip => exact hconstant _ _ (by decide) hstrip h
  split at h
  . next tail hstrip => exact hconstant _ _ (by decide) hstrip h
  split at h
  . simp at h
  . next text tail hnum =>
    rcases Except.bind_eq_ok.mp h with ⟨x, hx, h⟩
    rcases Prod.mk.inj (Except.pure_eq_ok.mp h) with ⟨rfl, rfl⟩
    rcases scanNumber?_append hnum with ⟨rfl, hnot⟩
    exact ⟨inv.float n _ _ hx, skip_append inv.skip _ _ hnot hs⟩
  . next text tail hnum =>
    rcases Except.bind_eq_ok.mp h with ⟨i, hi, h⟩
    rcases Prod.mk.inj (Except.pure_eq_ok.mp h) with ⟨rfl, rfl⟩
    rcases scanNumber?_append hnum with ⟨rfl, hnot⟩
    exact ⟨inv.int n _ _ hi, skip_append inv.skip _ _ hnot hs⟩

/--
The invariant of what a scanner returns.
-/
def Part.Holds (Q : Str → Prop) (P : Nat → Json → Prop) (n : Nat) : Part → Prop
  | .value v => P n v
  | .elems xs => ∀ x ∈ xs, P n x
  | .members ms => ∀ m ∈ ms, Q m.1 ∧ P n m.2

theorem Scans.sound {n : Nat} {s rest : Str} {part : Part} (h : Scans H n s part rest) (hs : C s)
    : part.Holds Q P n ∧ C rest := by
  have hchar : ∀ {c : CodePoint} {t : Str}, c ≠ 0x5c → C (c :: t) → C t := fun hc => inv.skip _ _ hc
  have hspace : ∀ {t u : Str}, skipSpace t = u → C t → C u :=
    fun heq ht => heq ▸ skip_skipSpace inv.skip _ ht
  induction h with
  | str h =>
    rcases inv.string _ _ _ h (hchar (by decide) hs) with ⟨ht, hrest⟩
    exact ⟨inv.str _ _ ht, hrest⟩
  | atom h => exact scanAtom_sound inv h hs _
  | nilArr h =>
    exact ⟨inv.arr _ [] (by simp), hchar (by decide) (hspace h (hchar (by decide) hs))⟩
  | arr _ ih =>
    rcases ih (hspace rfl (hchar (by decide) hs)) with ⟨hall, hrest⟩
    exact ⟨inv.arr _ _ hall, hrest⟩
  | nilObj h hms =>
    exact ⟨inv.obj _ [] _ (by simp) hms, hchar (by decide) (hspace h (hchar (by decide) hs))⟩
  | obj _ hms ih =>
    rcases ih (hspace rfl (hchar (by decide) hs)) with ⟨hall, hrest⟩
    exact ⟨inv.obj _ _ _ hall hms, hrest⟩
  | lastElem _ ht ih =>
    rcases ih hs with ⟨hx, hrest⟩
    exact ⟨List.forall_mem_singleton.mpr hx, hchar (by decide) (hspace ht hrest)⟩
  | elem _ ht _ ih ihs =>
    rcases ih hs with ⟨hx, hrest⟩
    rcases ihs (hspace rfl (hchar (by decide) (hspace ht hrest))) with ⟨hall, hrest⟩
    exact ⟨List.forall_mem_cons.mpr ⟨hx, hall⟩, hrest⟩
  | lastMember hk ht _ hw ih =>
    rcases inv.string _ _ _ hk (hchar (by decide) hs) with ⟨hk, hrest⟩
    rcases ih (hspace rfl (hchar (by decide) (hspace ht hrest))) with ⟨hv, hrest⟩
    exact ⟨List.forall_mem_singleton.mpr ⟨hk, hv⟩, hchar (by decide) (hspace hw hrest)⟩
  | member hk ht _ hw _ ih ihs =>
    rcases inv.string _ _ _ hk (hchar (by decide) hs) with ⟨hk, hrest⟩
    rcases ih (hspace rfl (hchar (by decide) (hspace ht hrest))) with ⟨hv, hrest⟩
    rcases ihs (hspace rfl (hchar (by decide) (hspace hw hrest))) with ⟨hall, hrest⟩
    exact ⟨List.forall_mem_cons.mpr ⟨⟨hk, hv⟩, hall⟩, hrest⟩

/--
What the invariant says about a loaded text.
-/
theorem loads_sound {s : Str} {v : Json} (h : loads H s = .ok v) (hs : C s)
    : P H.maxDepth v := by
  rcases scans_of_loads h with ⟨rest, hscans, _⟩
  exact (hscans.sound inv (skip_skipSpace inv.skip _ hs)).1

end

end Json
