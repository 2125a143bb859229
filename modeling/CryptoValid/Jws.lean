import CryptoValid.Lib.Base64
import CryptoValid.Lib.Separated
import CryptoValid.Verifier.Canonical
import CryptoValid.Verifier.Reading

/-!
This module contains the signed tokens of `cryptovalid_jws.py`: the strict base64url of their parts, a
token for an entry, and the check of a token.
-/

namespace CryptoValid
namespace Jws

open Base64 (standard urlsafe)
open Verifier (loadsStrict canonicalPayload Roomy)

/-!
### Base64url
-/

/--
`_b64u`
-/
def b64u (b : Bytes) : Str := ((Base64.encode b).map urlsafe).rdropWhile (· = 0x3d)

/--
`[A-Za-z0-9_-]`
-/
def isB64u (c : CodePoint) : Bool :=
  (0x41 ≤ c.val && c.val ≤ 0x5a) || (0x61 ≤ c.val && c.val ≤ 0x7a) ||
    (0x30 ≤ c.val && c.val ≤ 0x39) || c = 0x5f || c = 0x2d

/--
`_b64u_dec`
-/
def b64uDec (s : Str) : Option Bytes :=
  if !s.all isB64u || s.length % 4 = 1 then
    none
  else
    let padding := List.replicate ((4 - s.length % 4) % 4) (0x3d : CodePoint)
    match Base64.decode? ((s ++ padding).map standard) with
    | none => none
    | some raw => if b64u raw = s then some raw else none

theorem standard_urlsafe_digit {n : Nat} (hn : n < 64)
    : standard (urlsafe (Base64.digit n)) = Base64.digit n ∧
        isB64u (urlsafe (Base64.digit n)) = true ∧ urlsafe (Base64.digit n) ≠ 0x3d := by
  revert n
  decide

/--
The text is the base64 text in the other alphabet, without its padding.
-/
theorem b64u_spec (b : Bytes)
    : (b64u b).all isB64u = true ∧ (b64u b).length % 4 ≠ 1 ∧
        (b64u b ++ List.replicate ((4 - (b64u b).length % 4) % 4) 0x3d).map standard
          = Base64.encode b := by
  rcases Base64.encode_eq_padded b with ⟨body, k, heq, hbody, hk, hlength⟩
  have hpad : (List.replicate k (0x3d : CodePoint)).map urlsafe = List.replicate k 0x3d := by
    rw [List.map_replicate]
    rfl
  have hne : ∀ c ∈ body.map urlsafe, ¬(decide (c = 0x3d)) = true := by
    intro c hc
    rcases List.mem_map.mp hc with ⟨d, hd, rfl⟩
    rcases hbody d hd with ⟨n, hn, rfl⟩
    rw [decide_eq_true_eq]
    exact (standard_urlsafe_digit hn).2.2
  have hb64u : b64u b = body.map urlsafe := by
    have hall : ∀ c ∈ List.replicate k (0x3d : CodePoint), decide (c = 0x3d) = true := by
      intro c hc
      rw [List.eq_of_mem_replicate hc]
      rfl
    rw [b64u, heq, List.map_append, hpad, List.rdropWhile, List.reverse_append,
      List.reverse_replicate, List.dropWhile_append_of_pos hall, ← List.rdropWhile,
      List.rdropWhile_eq_self_iff]
    exact fun hlast => hne _ (List.getLast_mem hlast)
  have hlen : (b64u b).length = body.length := by rw [hb64u, List.length_map]
  refine ⟨?_, by omega, ?_⟩
  . rw [hb64u, List.all_map, List.all_eq_true]
    intro c hc
    rcases hbody c hc with ⟨n, hn, rfl⟩
    exact (standard_urlsafe_digit hn).2.1
  . have hcount : (4 - (b64u b).length % 4) % 4 = k := by omega
    rw [hcount, hb64u, heq, List.map_append, List.map_map, List.map_replicate]
    congr 1
    refine (List.map_congr_left fun c hc => ?_).trans (List.map_id body)
    rcases hbody c hc with ⟨n, hn, rfl⟩
    exact (standard_urlsafe_digit hn).1

/--
The accepted texts are those of the encoder, and each one stands for the bytes that it was made of.
-/
theorem b64uDec_eq_some {s : Str} {b : Bytes} : b64uDec s = some b ↔ s = b64u b := by
  constructor
  . intro h
    unfold b64uDec at h
    split at h
    . cases h
    . dsimp only at h
      split at h
      . cases h
      . split at h
        . next hsame =>
          rw [← Option.some.inj h, hsame]
        . cases h
  . rintro rfl
    rcases b64u_spec b with ⟨hall, hlength, hdecode⟩
    rw [b64uDec, hall, if_neg (by simpa using hlength)]
    dsimp only
    rw [hdecode, Base64.decode?_encode]
    dsimp only
    rw [if_pos rfl]

/-!
### Tokens
-/

/--
The signatures of `cryptography`: the raw public key of a private one, signing with a private key, and
whether a signature is accepted under a public key, which nothing is under a text that is no key.
-/
structure Ed25519 where
  publicBytes : Bytes → Option Bytes
  sign : Bytes → Bytes → Bytes
  verify : Bytes → Bytes → Bytes → Bool

structure Ed25519.Correct (ed : Ed25519) : Prop where
  length : ∀ seed pk, ed.publicBytes seed = some pk → pk.length = 32
  verify : ∀ seed pk message, ed.publicBytes seed = some pk →
    ed.verify pk message (ed.sign seed message) = true

inductive SignError where
  | key
  | x5c
  deriving DecidableEq

/--
What is wrong with a token, or right.
-/
inductive Why where
  | alg (value : Json)
  | otherKid
  | raised
  | trusted
  | untrusted
  deriving DecidableEq

structure Verdict where
  ok : Bool
  signatureValid : Option Bool
  header : Option Json
  record : Option Json
  x5cPresent : Option Bool
  why : Why

def headerOf (pk : Str) (x5c : List Str) : List (Str × Json) :=
  [(txt "alg", .str (txt "EdDSA")), (txt "typ", .str (txt "JOSE")), (txt "kid", .str pk),
      (txt "cty", .str (txt "application/cryptovalid-record+json"))] ++
    if x5c = [] then [] else [(txt "x5c", .arr (x5c.map .str))]

def signingInput (h p : Str) : Str := h ++ 0x2e :: p

/--
`s.encode("ascii")`
-/
def ascii? (s : Str) : Option Bytes :=
  if s.all fun c => c.val < 0x80 then some (s.map fun c => UInt8.ofNat c.val) else none

section

variable (ed : Ed25519) (padding : Base64.Padding) (interp : Python.Interp)

/--
`sign_entry`, for what the file of the key contains. A list without certificates stands for no list.
-/
def signEntry (entry : List (Str × Json)) (keyfile : Str) (x5c : List Str)
    : Except SignError Str := do
  let some seed := Python.fromHex? (Python.stripBlanks keyfile) | throw .key
  let some pk := ed.publicBytes seed | throw .key
  if x5c.any fun c => (Base64.validated? padding c).isNone then throw .x5c
  let header := Json.obj (headerOf (Hex.ofBytes pk) x5c)
  let h := b64u (header.canonical.flatMap Utf8.encodePoint)
  let p := b64u (canonicalPayload entry)
  let some message := ascii? (signingInput h p) | throw .key
  return signingInput (signingInput h p) (b64u (ed.sign seed message))

def parts? (jws : Str) : Option (Str × Str × Str) :=
  match Separated.split 0x2e jws with
  | [h, p, s] => some (h, p, s)
  | _ => none

/--
The check of a token; `none` where something is raised.
-/
def check (jws : Str) (trustedPubkeyHex : Option Str) : Option Verdict := do
  let (h, p, s) ← parts? jws
  let .obj header ← (Python.loadsBytes interp (← b64uDec h)).toOption | none
  let alg := (Assoc.lookup (txt "alg") header).getD .null
  let kid := (Assoc.lookup (txt "kid") header).getD .null
  let trusted := trustedPubkeyHex.filter (· ≠ [])
  if alg ≠ .str (txt "EdDSA") then
    return ⟨false, none, none, none, none, .alg alg⟩
  else if trusted.any fun key => kid ≠ .str key then
    return ⟨false, none, none, none, none, .otherKid⟩
  else
    let .str key := (trusted.map Json.str).getD kid | none
    let pk ← Python.fromHex? key
    let sig ← b64uDec s
    let message ← ascii? (signingInput h p)
    guard (ed.verify pk message sig)
    let record ← (Python.loadsBytes interp (← b64uDec p)).toOption
    return {
      ok := trusted.isSome
      signatureValid := some true
      header := some (.obj header)
      record := some record
      x5cPresent := some (Assoc.lookup (txt "x5c") header).isSome
      why := if trusted.isSome then .trusted else .untrusted }

def verify (jws : Str) (trustedPubkeyHex : Option Str) : Verdict :=
  (check ed interp jws trustedPubkeyHex).getD ⟨false, some false, none, none, none, .raised⟩

end

/-!
### One spelling
-/

/--
The bytes of header, payload and signature.
-/
def decoded? (jws : Str) : Option (Bytes × Bytes × Bytes) := do
  let (h, p, s) ← parts? jws
  return (← b64uDec h, ← b64uDec p, ← b64uDec s)

section

variable {ed : Ed25519} {interp : Python.Interp}

theorem parts?_eq_some {jws h p s : Str} (heq : parts? jws = some (h, p, s))
    : jws = signingInput (signingInput h p) s := by
  unfold parts? at heq
  split at heq
  . next h' p' s' hsplit =>
    rw [Option.some.injEq, Prod.mk.injEq, Prod.mk.injEq] at heq
    rcases heq with ⟨rfl, rfl, rfl⟩
    have hterm := Separated.terminated_split 0x2e jws
    rw [hsplit] at hterm
    simp only [Separated.terminated_cons, Separated.terminated_nil] at hterm
    have happend : signingInput (signingInput h' p') s' ++ [0x2e] = jws ++ [0x2e] := by
      rw [← hterm]
      simp [signingInput]
    exact (List.append_cancel_right happend).symm
  . cases heq

theorem decoded?_eq_some {jws : Str} {a b c : Bytes} (h : decoded? jws = some (a, b, c))
    : jws = signingInput (signingInput (b64u a) (b64u b)) (b64u c) := by
  rw [decoded?, Option.bind_eq_bind, Option.bind_eq_some_iff] at h
  rcases h with ⟨⟨x, y, z⟩, hparts, h⟩
  simp only [Option.bind_eq_bind, Option.bind_eq_some_iff] at h
  rcases h with ⟨a', ha, b', hb, c', hc, h⟩
  cases h
  rw [parts?_eq_some hparts, b64uDec_eq_some.mp ha, b64uDec_eq_some.mp hb, b64uDec_eq_some.mp hc]

/--
An accepted token has three parts, and each one is decoded.
-/
theorem decoded?_of_ok {jws : Str} {trusted : Option Str}
    (h : (verify ed interp jws trusted).ok = true) : ∃ x, decoded? jws = some x := by
  unfold verify at h
  cases hcheck : check ed interp jws trusted with
  | none => simp [hcheck] at h
  | some v =>
    rw [hcheck, Option.getD_some] at h
    unfold check at hcheck
    simp only [Option.bind_eq_bind, Option.bind_eq_some_iff] at hcheck
    rcases hcheck with ⟨⟨x, y, z⟩, hparts, raw, hraw, header, hheader, hcheck⟩
    dsimp only at hcheck
    split at hcheck
    . split at hcheck
      . rw [← Option.some.inj hcheck] at h
        cases h
      . split at hcheck
        . rw [← Option.some.inj hcheck] at h
          cases h
        . split at hcheck
          . rcases Option.bind_eq_some_iff.mp hcheck with ⟨pk, _, hcheck⟩
            rcases Option.bind_eq_some_iff.mp hcheck with ⟨sig, hsig, hcheck⟩
            rcases Option.bind_eq_some_iff.mp hcheck with ⟨message, _, hcheck⟩
            rcases Option.bind_eq_some_iff.mp hcheck with ⟨_, _, hcheck⟩
            rcases Option.bind_eq_some_iff.mp hcheck with ⟨payload, hpayload, _⟩
            refine ⟨(raw, payload, sig), ?_⟩
            rw [decoded?, hparts, Option.bind_eq_bind, Option.bind_some]
            dsimp only
            rw [hraw, hpayload, hsig]
            rfl
          . cases hcheck
    . cases hcheck

/-!
### A token that was just signed
-/

theorem dot_not_mem_b64u (b : Bytes) : (0x2e : CodePoint) ∉ b64u b := by
  intro hmem
  have hall := (b64u_spec b).1
  rw [List.all_eq_true] at hall
  exact absurd (hall _ hmem) (by decide)

theorem parts?_signingInput (a b c : Bytes)
    : parts? (signingInput (signingInput (b64u a) (b64u b)) (b64u c))
        = some (b64u a, b64u b, b64u c) := by
  rw [parts?, signingInput, signingInput, List.append_assoc, List.cons_append,
    Separated.split_append _ _ _ (dot_not_mem_b64u a),
    Separated.split_append _ _ _ (dot_not_mem_b64u b),
    Separated.split_of_not_mem _ _ (dot_not_mem_b64u c)]

theorem exists_ascii? (a b : Bytes) : ∃ message, ascii?
    (signingInput (b64u a) (b64u b)) = some message := by
  have hlt : ∀ c : CodePoint, isB64u c = true → c.val < 0x80 := by
    intro c hc
    simp only [isB64u, Bool.or_eq_true, Bool.and_eq_true, decide_eq_true_eq] at hc
    rcases hc with (((hc | hc) | hc) | rfl) | rfl
    . omega
    . omega
    . omega
    . decide
    . decide
  have hall : ∀ c ∈ signingInput (b64u a) (b64u b), c.val < 0x80 := by
    intro c hc
    rcases List.mem_append.mp hc with hc | hc
    . exact hlt c (List.all_eq_true.mp (b64u_spec a).1 c hc)
    . rcases List.mem_cons.mp hc with rfl | hc
      . decide
      . exact hlt c (List.all_eq_true.mp (b64u_spec b).1 c hc)
  rw [ascii?, if_pos (List.all_eq_true.mpr fun c hc => decide_eq_true (hall c hc))]
  exact ⟨_, rfl⟩

/--
A canonical text is loaded with the members in the order of their names.
-/
theorem loadsBytes_canonical (hinterp : Roomy interp) {ms : List (Str × Json)}
    (hv : Json.All InProfile (.obj ms)) (hdepth : (Json.obj ms).depth ≤ maxJsonDepth)
    : Python.loadsBytes interp ((Json.obj ms).canonical.flatMap Utf8.encodePoint)
        = .ok (Json.obj ms).sortKeys := by
  have hload := Verifier.loadsStrict_dumps (inProfile_sortKeys hv)
    (by rw [Json.depth_sortKeys]; exact hdepth) [] [] rfl rfl
  rw [List.nil_append, List.append_nil] at hload
  have hload := (Verifier.loads_of_loadsStrict hload).2
  have hplain := Json.loads_refines (Verifier.refines_hooks_of_roomy hinterp) hload
  rw [Json.sortKeys_obj] at hload
  rw [Json.canonical]
  rw [Python.loadsBytes_eq interp (by rw [Json.sortKeys_obj]; exact hload)]
  exact hplain

theorem inProfile_headerOf {pk : Str} {x5c : List Str} (hpk : Str.Scalar pk)
    (hx5c : ∀ c ∈ x5c, Str.Scalar c) : Json.All InProfile (.obj (headerOf pk x5c)) := by
  have hfixed : Str.Scalar (txt "EdDSA") ∧ Str.Scalar (txt "JOSE") ∧
      Str.Scalar (txt "application/cryptovalid-record+json") := by
    decide
  have hcerts : Json.All InProfile (.arr (x5c.map .str)) := by
    rw [Json.all_arr]
    refine ⟨trivial, fun v hv => ?_⟩
    rcases List.mem_map.mp hv with ⟨c, hc, rfl⟩
    exact hx5c c hc
  rw [headerOf, Json.all_obj]
  by_cases hnil : x5c = []
  . rw [if_pos hnil, List.append_nil]
    refine ⟨⟨by simp; decide, by simp; decide⟩, ?_⟩
    simp only [List.forall_mem_cons, List.not_mem_nil, false_implies, implies_true, and_true]
    exact ⟨hfixed.1, hfixed.2.1, hpk, hfixed.2.2⟩
  . rw [if_neg hnil]
    refine ⟨⟨by simp; decide, by simp; decide⟩, ?_⟩
    simp only [List.cons_append, List.nil_append, List.forall_mem_cons, List.not_mem_nil,
      false_implies, implies_true, and_true]
    exact ⟨hfixed.1, hfixed.2.1, hpk, hfixed.2.2, hcerts⟩

theorem depth_headerOf (pk : Str) (x5c : List Str)
    : (Json.obj (headerOf pk x5c)).depth ≤ maxJsonDepth := by
  have hcerts : Json.depthElems (x5c.map .str) ≤ 0 := by
    rw [Json.depthElems_le_iff]
    intro v hv
    rcases List.mem_map.mp hv with ⟨c, _, rfl⟩
    exact le_rfl
  have hmembers : ∀ m ∈ headerOf pk x5c, m.2.depth ≤ 1 := by
    intro m hm
    rcases List.mem_append.mp hm with hm | hm
    . simp only [List.mem_cons, List.not_mem_nil, or_false] at hm
      rcases hm with rfl | rfl | rfl | rfl <;> exact Nat.zero_le _
    . split at hm
      . cases hm
      . rw [List.mem_singleton.mp hm, Json.depth]
        omega
  have hdepth := (Json.depthMembers_le_iff (headerOf pk x5c) 1).mpr hmembers
  rw [Json.depth, maxJsonDepth]
  omega

theorem lookup_headerOf (pk : Str) (x5c : List Str)
    : Assoc.lookup (txt "alg") (headerOf pk x5c) = some (.str (txt "EdDSA")) ∧
        Assoc.lookup (txt "kid") (headerOf pk x5c) = some (.str pk) :=
  ⟨rfl, rfl⟩

theorem scalar_of_validated? {padding : Base64.Padding} {s : Str} {raw : Bytes}
    (h : Base64.validated? padding s = some raw) : Str.Scalar s := by
  have hdigit : ∀ c : CodePoint, (Base64.digit? c).isSome = true → c.isSurrogate = false := by
    intro c hc
    simp only [CodePoint.isSurrogate, Bool.and_eq_false_iff, decide_eq_false_iff_not]
    unfold Base64.digit? at hc
    repeat' split at hc
    all_goals first
      | omega
      | cases hc
  intro c hc
  rcases Base64.forall_mem_of_validated? h c hc with hsome | rfl
  . exact hdigit c hsome
  . decide

/--
A key that can be read signs every entry.
-/
theorem signEntry_eq (entry : List (Str × Json)) {padding : Base64.Padding} {keyfile : Str}
    {x5c : List Str} {seed pk : Bytes}
    (hseed : Python.fromHex? (Python.stripBlanks keyfile) = some seed)
    (hpk : ed.publicBytes seed = some pk)
    (hx5c : ∀ c ∈ x5c, (Base64.validated? padding c).isSome = true)
    : ∃ message,
        ascii? (signingInput
          (b64u ((Json.obj (headerOf (Hex.ofBytes pk) x5c)).canonical.flatMap Utf8.encodePoint))
          (b64u (canonicalPayload entry))) = some message ∧
        signEntry ed padding entry keyfile x5c = .ok (signingInput (signingInput
          (b64u ((Json.obj (headerOf (Hex.ofBytes pk) x5c)).canonical.flatMap Utf8.encodePoint))
          (b64u (canonicalPayload entry))) (b64u (ed.sign seed message))) := by
  rcases exists_ascii?
    ((Json.obj (headerOf (Hex.ofBytes pk) x5c)).canonical.flatMap Utf8.encodePoint)
    (canonicalPayload entry) with ⟨message, hmessage⟩
  refine ⟨message, hmessage, ?_⟩
  have hnone : (x5c.any fun c => (Base64.validated? padding c).isNone) = false := by
    rw [List.any_eq_false]
    intro c hc
    rw [Option.isNone_iff_eq_none]
    intro hnone
    have hsome := hx5c c hc
    rw [hnone] at hsome
    cases hsome
  rw [signEntry, hseed]
  dsimp only
  rw [hpk]
  dsimp only
  rw [hnone]
  simp only [Bool.false_eq_true, if_false, hmessage]
  rfl

/--
A token that was just signed is accepted, and gives back what was signed.
-/
theorem verify_signed (hed : ed.Correct) (hinterp : Roomy interp) {text : Str}
    {entry : List (Str × Json)} (hload : loadsStrict text = .ok (.obj entry)) {x5c : List Str}
    {padding : Base64.Padding} (hx5c : ∀ c ∈ x5c, (Base64.validated? padding c).isSome = true)
    {seed pk message : Bytes}
    (hpk : ed.publicBytes seed = some pk)
    (hmessage : ascii? (signingInput
      (b64u ((Json.obj (headerOf (Hex.ofBytes pk) x5c)).canonical.flatMap Utf8.encodePoint))
      (b64u (canonicalPayload entry))) = some message)
    : ∃ v, v = verify ed interp (signingInput (signingInput
          (b64u ((Json.obj (headerOf (Hex.ofBytes pk) x5c)).canonical.flatMap Utf8.encodePoint))
          (b64u (canonicalPayload entry))) (b64u (ed.sign seed message))) (some (Hex.ofBytes pk)) ∧
        v.ok = true ∧ v.why = .trusted ∧
        v.record = some (Json.obj (withoutAttestation entry)).sortKeys := by
  have hprofile := Verifier.inProfile_of_loadsStrict hload
  have hdepth := Verifier.depth_withoutAttestation (Verifier.depth_of_loadsStrict hload)
  have hscalar : ∀ c ∈ x5c, Str.Scalar c := by
    intro c hc
    rcases Option.isSome_iff_exists.mp (hx5c c hc) with ⟨raw, hraw⟩
    exact scalar_of_validated? hraw
  have hheaderProfile := inProfile_headerOf (Hex.scalar_ofBytes pk) hscalar
  have hheader := loadsBytes_canonical hinterp hheaderProfile (depth_headerOf (Hex.ofBytes pk) x5c)
  have hrecord : Python.loadsBytes interp (canonicalPayload entry)
      = .ok (Json.obj (withoutAttestation entry)).sortKeys :=
    loadsBytes_canonical hinterp (inProfile_withoutAttestation hprofile) hdepth
  -- the header is read back with its keys in order, under each key is what was there
  obtain ⟨ns, hns⟩ : ∃ ns, (Json.obj (headerOf (Hex.ofBytes pk) x5c)).sortKeys = .obj ns :=
    ⟨_, Json.sortKeys_obj _⟩
  have hnodup := hheaderProfile.self.1
  have halg : Assoc.lookup (txt "alg") ns = some (.str (txt "EdDSA")) := by
    rw [lookup_sortKeys hns hnodup, (lookup_headerOf _ _).1]
    rfl
  have hkid : Assoc.lookup (txt "kid") ns = some (.str (Hex.ofBytes pk)) := by
    rw [lookup_sortKeys hns hnodup, (lookup_headerOf _ _).2]
    rfl
  -- an empty text would stand for no key at all
  have hkey : (some (Hex.ofBytes pk)).filter (· ≠ []) = some (Hex.ofBytes pk) := by
    rw [Option.filter_some, if_pos]
    have hlength := hed.length seed pk hpk
    cases pk with
    | nil => cases hlength
    | cons b pk => simp [Hex.ofBytes]
  rw [hns] at hheader
  have hcheck : check ed interp (signingInput (signingInput
        (b64u ((Json.obj (headerOf (Hex.ofBytes pk) x5c)).canonical.flatMap Utf8.encodePoint))
        (b64u (canonicalPayload entry))) (b64u (ed.sign seed message))) (some (Hex.ofBytes pk))
      = some ⟨true, some true, some (.obj ns), some (Json.obj (withoutAttestation entry)).sortKeys,
          some (Assoc.lookup (txt "x5c") ns).isSome, .trusted⟩ := by
    have hverify := hed.verify seed pk message hpk
    unfold check
    simp only [Option.bind_eq_bind, parts?_signingInput, Option.bind_some, b64uDec_eq_some.mpr rfl,
      hheader, Except.toOption, halg, hkid, hkey, Option.getD_some, hrecord, hmessage,
      Python.fromHex?_ofBytes, hverify, ne_eq, not_true_eq_false, if_false, Option.any_some,
      decide_false, Option.map_some, Option.isSome_some, if_true]
    simp [guard, pure]
  rw [verify, hcheck]
  exact ⟨_, rfl, rfl, rfl, rfl⟩

/--
Every part of a token has one spelling. What decodes is the text of the bytes it decodes to, so that
accepted tokens with the same parts are the same token; and a token for an entry is accepted under the
key that signed it, with the entry without the fields of its attestation.
-/
theorem verify_oneSpelling (padding : Base64.Padding) (hed : ed.Correct) (hinterp : Roomy interp)
    : (∀ s b, b64uDec s = some b ↔ s = b64u b) ∧
      (∀ s t b, b64uDec s = some b → b64uDec t = some b → s = t) ∧
      (∀ jws jws' key, (verify ed interp jws key).ok = true → (verify ed interp jws' key).ok = true →
        decoded? jws = decoded? jws' → jws = jws') ∧
      ∀ text entry keyfile x5c seed pk, loadsStrict text = .ok (.obj entry) →
        Python.fromHex? (Python.stripBlanks keyfile) = some seed → ed.publicBytes seed = some pk →
        (∀ c ∈ x5c, (Base64.validated? padding c).isSome = true) →
        ∃ jws v, signEntry ed padding entry keyfile x5c = .ok jws ∧
          v = verify ed interp jws (some (Hex.ofBytes pk)) ∧ v.ok = true ∧ v.why = .trusted ∧
          v.record = some (Json.obj (withoutAttestation entry)).sortKeys := by
  refine ⟨fun s b => b64uDec_eq_some, fun s t b hs ht => ?_, ?_, ?_⟩
  . rw [b64uDec_eq_some.mp hs, b64uDec_eq_some.mp ht]
  . intro jws jws' key hok hok' hsame
    rcases decoded?_of_ok hok with ⟨⟨a, b, c⟩, hdecoded⟩
    have hdecoded' := hsame.symm.trans hdecoded
    rw [decoded?_eq_some hdecoded, decoded?_eq_some hdecoded']
  . intro text entry keyfile x5c seed pk hload hseed hpk hx5c
    rcases signEntry_eq entry hseed hpk hx5c with ⟨message, hmessage, hsign⟩
    rcases verify_signed hed hinterp hload hx5c hpk hmessage with ⟨v, hv, hok, hwhy, hrecord⟩
    exact ⟨_, v, hsign, hv, hok, hwhy, hrecord⟩

end

def exampleKeyfile : Str := txt "9d61b19deffd5a60ba844af492ec2cc44449c5697b326919703bac031cae7f60"

def exampleSeed : Bytes := (Python.fromHex? exampleKeyfile).getD []

def examplePublic : Bytes :=
  (Python.fromHex? (txt "d75a980182b10ab7d54bfed3c964073a0ee172f3daa62325af021a68f707511a")).getD []

def exampleText : Str :=
  txt "\x7b\"data\":\x7b\"items\":[\x7b\"qty\":2,\"sku\":\"a\"\x7d,\x7b\"qty\":1,\"sku\":\"b\"\x7d],\"kind\":\"order\"\x7d," ++
    txt "\"idx\":7,\"self_hash\":\"00ff\"\x7d"

def exampleEntry : List (Str × Json) := [
  (txt "data", .obj [
    (txt "items", .arr [.obj [(txt "qty", .int 2), (txt "sku", .str (txt "a"))],
      .obj [(txt "qty", .int 1), (txt "sku", .str (txt "b"))]]),
    (txt "kind", .str (txt "order"))]),
  (txt "idx", .int 7),
  (txt "self_hash", .str (txt "00ff"))]

/--
The token of the entry, with one certificate.
-/
def exampleInput : Str :=
  signingInput
    (b64u ((Json.obj (headerOf (Hex.ofBytes examplePublic) [txt "MAA="])).canonical.flatMap
      Utf8.encodePoint))
    (b64u (canonicalPayload exampleEntry))

/--
The signature of the example; no other message is signed.
-/
def exampleSign (message : Bytes) : Bytes :=
  if message = exampleInput.map fun c => UInt8.ofNat c.val then
    (Python.fromHex? (txt "506f93a10c6e4417f7c41e954dc974657363a755fcae493a8b5302b93f9da574" ++
      txt "583c609de906ae5e6df795453367472692a8286d2ede9d0188933b4c8c0e1a00")).getD []
  else
    []

def exampleEd25519 : Ed25519 where
  publicBytes seed := if seed = exampleSeed then some examplePublic else none
  sign _ message := exampleSign message
  verify pk message sig := pk = examplePublic && sig = exampleSign message

theorem correct_exampleEd25519 : exampleEd25519.Correct where
  length := by
    intro seed pk h
    simp only [exampleEd25519, Option.ite_none_right_eq_some, Option.some.injEq] at h
    rw [← h.2]
    decide +kernel
  verify := by
    intro seed pk message h
    simp only [exampleEd25519, Option.ite_none_right_eq_some, Option.some.injEq] at h
    simp [exampleEd25519, h.2]

theorem verify_oneSpelling_example
    : ∃ jws v, signEntry exampleEd25519 .exact exampleEntry exampleKeyfile [txt "MAA="] = .ok jws ∧
        v = verify exampleEd25519 ⟨1000, 1000, some 4300⟩ jws (some (Hex.ofBytes examplePublic)) ∧
        v.ok = true ∧ v.why = .trusted ∧
        v.record = some (Json.obj (withoutAttestation exampleEntry)).sortKeys :=
  (verify_oneSpelling .exact correct_exampleEd25519 ⟨by decide, by decide, by decide⟩).2.2.2
    exampleText exampleEntry exampleKeyfile [txt "MAA="] exampleSeed examplePublic
    (by decide +kernel) (by decide +kernel) (by decide +kernel) (by decide +kernel)

end Jws
end CryptoValid
