import CryptoValid.Lib.Collision
import Mathlib.Data.List.Induction

/-!
This module contains hash chains: every entry carries the digest of the entry before it. The last
digest fixes the chain, up to a clash of digests, if its length is known or the start is no digest.
-/

namespace HashChain

section

variable {ε δ : Type} (link digest : ε → δ)

/--
The first entry links to `start`, every other one to the entry before it.
-/
def Linked (start : δ) : List ε → Prop
  | [] => True
  | x :: xs => link x = start ∧ Linked (digest x) xs

/--
What the next entry has to link to.
-/
def tip (start : δ) : List ε → δ
  | [] => start
  | x :: xs => tip (digest x) xs

@[simp]
theorem tip_concat (start : δ) (xs : List ε) (y : ε) : tip digest start (xs ++ [y]) = digest y := by
  induction xs generalizing start with
  | nil => rfl
  | cons x xs ih => exact ih (digest x)

theorem tip_eq_getLast? (start : δ) (xs : List ε)
    : tip digest start xs = (xs.getLast?.map digest).getD start := by
  induction xs generalizing start with
  | nil => rfl
  | cons x xs ih =>
    rw [tip, ih, List.getLast?_cons]
    cases xs.getLast? <;> rfl

/--
Every link is the start or a digest.
-/
theorem Linked.link_eq {start : δ} {xs : List ε} (h : Linked link digest start xs) {x : ε}
    (hx : x ∈ xs) : link x = start ∨ ∃ y ∈ xs, link x = digest y := by
  induction xs generalizing start with
  | nil => simp at hx
  | cons z xs ih =>
    rcases List.mem_cons.mp hx with rfl | hx
    . exact Or.inl h.1
    . rcases ih h.2 hx with heq | ⟨y, hy, heq⟩
      . exact Or.inr ⟨z, List.mem_cons_self, heq⟩
      . exact Or.inr ⟨y, List.mem_cons_of_mem _ hy, heq⟩

theorem linked_concat (start : δ) (xs : List ε) (y : ε)
    : Linked link digest start (xs ++ [y])
        ↔ Linked link digest start xs ∧ link y = tip digest start xs := by
  induction xs generalizing start with
  | nil => simp [Linked, tip]
  | cons x xs ih => simp [Linked, tip, ih, and_assoc]

end

theorem linked_append {ε δ : Type} {link digest : ε → δ} {start : δ} {xs ys : List ε}
    (h : Linked link digest start (xs ++ ys)) : Linked link digest start xs := by
  induction xs generalizing start with
  | nil => trivial
  | cons x xs ih => exact ⟨h.1, ih h.2⟩

/--
Two chains with the same last digest, which are of one length or start with no digest, have the same
payloads. The digests of the two may be different functions of the payload.
-/
theorem payloads_eq_or_clashes {ε μ δ : Type} {payload : ε → μ} {link : ε → δ} {f g : μ → δ}
    {start : δ} {xs ys : List ε}
    (hxs : Linked link (fun x => f (payload x)) start xs)
    (hys : Linked link (fun y => g (payload y)) start ys)
    (hlink : ∀ x ∈ xs, ∀ y ∈ ys, payload x = payload y → link x = link y)
    (hend : xs.length = ys.length ∨ ∀ m, f m ≠ start ∧ g m ≠ start)
    (htip : tip (fun x => f (payload x)) start xs = tip (fun y => g (payload y)) start ys)
    : xs.map payload = ys.map payload ∨ Clashes f g (xs.map payload) (ys.map payload) := by
  induction xs using List.reverseRecOn generalizing ys with
  | nil =>
    rcases List.eq_nil_or_concat ys with rfl | ⟨ys, y, rfl⟩
    . exact Or.inl rfl
    . rw [List.concat_eq_append] at *
      rw [tip_concat] at htip
      rcases hend with hlen | hstart
      . simp at hlen
      . exact absurd htip.symm (hstart _).2
  | append_singleton xs x ih =>
    rcases List.eq_nil_or_concat ys with rfl | ⟨ys, y, rfl⟩
    . rw [tip_concat] at htip
      rcases hend with hlen | hstart
      . simp at hlen
      . exact absurd htip (hstart _).1
    . rw [List.concat_eq_append] at *
      rw [linked_concat] at hxs hys
      rw [tip_concat, tip_concat] at htip
      by_cases hpayload : payload x = payload y
      . have htip' := hlink x (by simp) y (by simp) hpayload
        rw [hxs.2, hys.2] at htip'
        have hlink' : ∀ x ∈ xs, ∀ y ∈ ys, payload x = payload y → link x = link y :=
          fun x hx y hy => hlink x (by simp [hx]) y (by simp [hy])
        rcases ih hxs.1 hys.1 hlink' (hend.imp_left (by simp)) htip' with heq | hclash
        . exact Or.inl (by simp [heq, hpayload])
        . exact Or.inr (hclash.mono (by simp) (by simp))
      . exact Or.inr ⟨payload x, by simp, payload y, by simp, hpayload, htip⟩

end HashChain
