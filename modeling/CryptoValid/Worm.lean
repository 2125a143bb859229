import CryptoValid.Lib.Aead
import CryptoValid.Lib.Dict
import CryptoValid.Lib.Runs
import CryptoValid.Lib.Sha256
import CryptoValid.Lib.Sha3
import CryptoValid.Lib.Text

/-!
This module contains the WORM escrow store of `cryptovalid_worm.py`: a write-once directory of
encrypted records and a keyring whose keys can be shredded. What comes from outside (fresh keys and
nonces, whether the disk takes a write) is part of the input of an operation.
-/

namespace CryptoValid
namespace Worm

/--
What the module imports: the hash functions, and `AESGCM` if `cryptography` is there.
-/
structure Config where
  sha256 : HashFn 32
  sha3_256 : HashFn 32
  aesgcm : Aead
  haveCrypto : Bool

inductive Error where
  | noCrypto
  | unicodeEncode
  | overflow
  | alreadyWritten (key : Str)
  | outputNotWritten
  | absent (key : Str)
  | keyAbsent
  | invalidTag
  deriving DecidableEq

/--
`LocalWormStore` and `KeyRing`: the files below `root` with their content, and the keys by key id.
-/
structure State where
  objects : Dict Str Bytes
  keys : Dict Str Bytes
  deriving DecidableEq

structure PutReceipt where
  key : Str
  bytes : Nat
  sha256 : Str
  deriving DecidableEq

structure Receipt where
  recordId : Str
  keyId : Str
  wormSha256 : Str
  ciphertextSha3_256 : Str
  bytes : Nat
  honestScope : Str
  deriving DecidableEq

/--
What a call of `store_record_escrow` gets from its surroundings. `written` is the outcome of
`write_new`: the whole object, or nothing and an exception.
-/
structure Surroundings where
  freshKey : Bytes
  nonce : Bytes
  written : Bool
  length_freshKey : freshKey.length = 32
  length_nonce : nonce.length = 12

section

variable (cfg : Config)

namespace LocalWormStore

def path (key : Bytes) : Str := Hex.ofBytes (cfg.sha256 key) ++ txt ".worm"

def put (objects : Dict Str Bytes) (key : Str) (blob : Bytes) (written : Bool)
    : Dict Str Bytes × Except Error PutReceipt :=
  match Utf8.encode? key with
  | none => (objects, .error .unicodeEncode)
  | some raw =>
    let p := path cfg raw
    if objects.contains p then
      (objects, .error (.alreadyWritten key))
    else if written then
      (objects.set p blob, .ok ⟨key, blob.length, Hex.ofBytes (cfg.sha256 blob)⟩)
    else
      (objects, .error .outputNotWritten)

def get (objects : Dict Str Bytes) (key : Str) : Except Error Bytes :=
  match Utf8.encode? key with
  | none => .error .unicodeEncode
  | some raw =>
    match objects.get? (path cfg raw) with
    | none => .error (.absent key)
    | some blob => .ok blob

end LocalWormStore

namespace KeyRing

def newKey (keys : Dict Str Bytes) (keyId : Str) (freshKey : Bytes) : Dict Str Bytes :=
  keys.set keyId freshKey

def get (keys : Dict Str Bytes) (keyId : Str) : Option Bytes := keys.get? keyId

/--
`pop`: the new keyring, and whether there was a key.
-/
def cryptoShred (keys : Dict Str Bytes) (keyId : Str) : Dict Str Bytes × Bool :=
  (keys.erase keyId, keys.contains keyId)

end KeyRing

def honestScope : Str :=
  txt ("il DATO cifrato è in WORM write-once; il suo digest è ancorabile per integrità; " ++
    "GDPR erasure via crypto_shred (la chiave, non l'oggetto WORM). Non prova veridicità.")

def keyIdOf (raw : Bytes) : Str := txt "k-" ++ (Hex.ofBytes (cfg.sha256 raw)).take 24

def storeRecordEscrow (s : State) (record : Bytes) (recordId : Str) (env : Surroundings)
    : State × Except Error Receipt :=
  if !cfg.haveCrypto then
    (s, .error .noCrypto)
  else
    match Utf8.encode? (recordId ++ txt ":key") with
    | none => (s, .error .unicodeEncode)
    | some raw =>
      let keyId := keyIdOf cfg raw
      let s := { s with keys := KeyRing.newKey s.keys keyId env.freshKey }
      match Utf8.encode? recordId with
      | none => (s, .error .unicodeEncode)
      | some aad =>
        match cfg.aesgcm.encrypt env.freshKey env.nonce record aad with
        | none => (s, .error .overflow)
        | some ct =>
          let blob := env.nonce ++ ct
          match LocalWormStore.put cfg s.objects recordId blob env.written with
          | (objects, .error e) => ({ s with objects }, .error e)
          | (objects, .ok receipt) =>
            ({ s with objects }, .ok {
              recordId
              keyId
              wormSha256 := receipt.sha256
              ciphertextSha3_256 := Hex.ofBytes (cfg.sha3_256 blob)
              bytes := receipt.bytes
              honestScope })

def retrieveRecord (s : State) (recordId keyId : Str) : Except Error Bytes :=
  if !cfg.haveCrypto then
    .error .noCrypto
  else
    match KeyRing.get s.keys keyId with
    | none => .error .keyAbsent
    | some key =>
      match LocalWormStore.get cfg s.objects recordId with
      | .error e => .error e
      | .ok blob =>
        match Utf8.encode? recordId with
        | none => .error .unicodeEncode
        | some aad =>
          match cfg.aesgcm.decrypt key (blob.take 12) (blob.drop 12) aad with
          | none => .error .invalidTag
          | some record => .ok record

/-!
### Runs
-/

inductive Op where
  | store (record : Bytes) (recordId : Str) (env : Surroundings)
  | retrieve (recordId keyId : Str)
  | shred (keyId : Str)

/--
A record that was stored successfully and whose key has not been shredded since.
-/
structure Live where
  recordId : Str
  keyId : Str
  content : Bytes
  deriving DecidableEq

/--
The two stores, and what their user relies on.
-/
structure World where
  state : State
  live : List Live
  deriving DecidableEq

def step (w : World) : Op → World
  | .store record recordId env =>
    match storeRecordEscrow cfg w.state record recordId env with
    | (s, .error _) => { w with state := s }
    | (s, .ok receipt) => ⟨s, ⟨recordId, receipt.keyId, record⟩ :: w.live⟩
  | .retrieve _ _ => w
  | .shred keyId =>
    match KeyRing.cryptoShred w.state.keys keyId with
    | (keys, true) => ⟨{ w.state with keys }, w.live.filter fun r => r.keyId ≠ keyId⟩
    | (keys, false) => { w with state := { w.state with keys } }

/--
The first law: a store that raises leaves the keyring and the WORM directory as they were.
-/
def RaisesUnchanged (w : World) : Op → Prop
  | .store record recordId env =>
    match storeRecordEscrow cfg w.state record recordId env with
    | (s, .error _) => s = w.state
    | (_, .ok _) => True
  | _ => True

/--
The second law: every live record is retrieved with its content.
-/
def Retrievable (w : World) : Prop :=
  ∀ r ∈ w.live, retrieveRecord cfg w.state r.recordId r.keyId = .ok r.content

/--
Whether a store keeps both laws, decided before it runs: it is refused before it draws a key, or
nothing refuses it later and no key is overwritten.
-/
def Admissible (w : World) : Op → Prop
  | .store record recordId env =>
    match Utf8.encode? recordId with
    | none => True
    | some aad =>
      cfg.haveCrypto = false ∨
        (w.state.objects.contains (LocalWormStore.path cfg aad) = false ∧
          env.written = true ∧
          record.length ≤ cfg.aesgcm.maxSize ∧
          aad.length ≤ cfg.aesgcm.maxSize ∧
          w.state.keys.contains (keyIdOf cfg (aad ++ (txt ":key").flatMap Utf8.encodePoint)) = false)
  | _ => True

instance (w : World) (op : Op) : Decidable (Admissible cfg w op) := by
  unfold Admissible
  repeat' split
  all_goals infer_instance

instance (w : World) (op : Op) : Decidable (RaisesUnchanged cfg w op) := by
  unfold RaisesUnchanged
  repeat' split
  all_goals infer_instance

instance (w : World) : Decidable (Retrievable cfg w) :=
  inferInstanceAs (Decidable (∀ r ∈ w.live, _ = _))

variable {cfg}

theorem encode?_append_key (recordId : Str)
    : Utf8.encode? (recordId ++ txt ":key")
        =
      (Utf8.encode? recordId).map (· ++ (txt ":key").flatMap Utf8.encodePoint) := by
  have hkey : Str.Scalar (txt ":key") := by decide
  unfold Utf8.encode?
  by_cases hs : Str.Scalar recordId
  . simp [hs, hkey, Str.scalar_append]
  . simp [hs, Str.scalar_append]

/--
An admissible store is refused before anything changes, or it goes through and writes one object and
one key at places that were free.
-/
theorem storeRecordEscrow_of_admissible (w : World) (record : Bytes) (recordId : Str)
    (env : Surroundings) (h : Admissible cfg w (.store record recordId env))
    : (∃ e, storeRecordEscrow cfg w.state record recordId env = (w.state, .error e)) ∨
        ∃ aad ct receipt,
          cfg.haveCrypto = true ∧
          Utf8.encode? recordId = some aad ∧
          cfg.aesgcm.encrypt env.freshKey env.nonce record aad = some ct ∧
          w.state.objects.get? (LocalWormStore.path cfg aad) = none ∧
          w.state.keys.get? receipt.keyId = none ∧
          storeRecordEscrow cfg w.state record recordId env
            =
          (⟨w.state.objects.set (LocalWormStore.path cfg aad) (env.nonce ++ ct),
            w.state.keys.set receipt.keyId env.freshKey⟩, .ok receipt) := by
  by_cases hcrypto : cfg.haveCrypto = true
  . cases haad : Utf8.encode? recordId with
    | none =>
      refine Or.inl ⟨.unicodeEncode, ?_⟩
      simp [storeRecordEscrow, hcrypto, encode?_append_key, haad]
    | some aad =>
      simp only [Admissible, haad, hcrypto, Bool.true_eq_false, false_or] at h
      rcases h with ⟨hfree, hwritten, hrecord, hid, hkey⟩
      have hsome := (cfg.aesgcm.encrypt_isSome env.freshKey env.nonce record aad
        env.length_freshKey env.length_nonce).mpr ⟨hrecord, hid⟩
      rcases Option.isSome_iff_exists.mp hsome with ⟨ct, hct⟩
      refine Or.inr ⟨aad, ct, ?_⟩
      simp [storeRecordEscrow, hcrypto, encode?_append_key, haad, hct, LocalWormStore.put, hfree,
        hwritten, KeyRing.newKey, (Dict.contains_eq_false_iff _ _).mp hfree,
        (Dict.contains_eq_false_iff _ _).mp hkey]
  . refine Or.inl ⟨.noCrypto, ?_⟩
    simp [storeRecordEscrow, hcrypto]

/--
Where a live record is: its key in the keyring, and in the directory the ciphertext under that key.
-/
def Kept (cfg : Config) (s : State) (r : Live) : Prop :=
  ∃ aad key nonce ct,
    cfg.haveCrypto = true ∧
    Utf8.encode? r.recordId = some aad ∧
    s.keys.get? r.keyId = some key ∧
    s.objects.get? (LocalWormStore.path cfg aad) = some (nonce ++ ct) ∧
    nonce.length = 12 ∧
    cfg.aesgcm.encrypt key nonce r.content aad = some ct

theorem Kept.retrieve {s : State} {r : Live} (h : Kept cfg s r)
    : retrieveRecord cfg s r.recordId r.keyId = .ok r.content := by
  rcases h with ⟨aad, key, nonce, ct, hcrypto, haad, hkey, hobj, hlen, hct⟩
  have hdec := cfg.aesgcm.decrypt_encrypt key nonce r.content aad ct hct
  have htake : (nonce ++ ct).take 12 = nonce := List.take_left' hlen
  have hdrop : (nonce ++ ct).drop 12 = ct := List.drop_left' hlen
  simp [retrieveRecord, hcrypto, KeyRing.get, hkey, LocalWormStore.get, haad, hobj, htake, hdrop,
    hdec]

theorem Kept.of_set {s : State} {r : Live} (h : Kept cfg s r) {p keyId : Str} (blob key : Bytes)
    (hp : s.objects.get? p = none) (hkeyId : s.keys.get? keyId = none)
    : Kept cfg ⟨s.objects.set p blob, s.keys.set keyId key⟩ r := by
  rcases h with ⟨aad, key', nonce, ct, hcrypto, haad, hkey, hobj, hlen, hct⟩
  refine ⟨aad, key', nonce, ct, hcrypto, haad, ?_, ?_, hlen, hct⟩
  . rw [Dict.get?_set_of_ne _ _ (fun heq => by simp [heq, hkeyId] at hkey)]
    exact hkey
  . rw [Dict.get?_set_of_ne _ _ (fun heq => by simp [heq, hp] at hobj)]
    exact hobj

theorem Kept.of_erase {s : State} {r : Live} (h : Kept cfg s r) {keyId : Str}
    (hne : r.keyId ≠ keyId) : Kept cfg { s with keys := s.keys.erase keyId } r := by
  rcases h with ⟨aad, key', nonce, ct, hcrypto, haad, hkey, hobj, hlen, hct⟩
  exact ⟨aad, key', nonce, ct, hcrypto, haad, by rwa [Dict.get?_erase_of_ne _ hne], hobj, hlen, hct⟩

def AllKept (cfg : Config) (w : World) : Prop := ∀ r ∈ w.live, Kept cfg w.state r

theorem AllKept.retrievable {w : World} (h : AllKept cfg w) : Retrievable cfg w :=
  fun r hr => (h r hr).retrieve

theorem step_of_admissible (w : World) (op : Op) (hinv : AllKept cfg w) (h : Admissible cfg w op)
    : RaisesUnchanged cfg w op ∧ AllKept cfg (step cfg w op) := by
  cases op with
  | store record recordId env =>
    rcases storeRecordEscrow_of_admissible w record recordId env h with
      ⟨e, heq⟩ | ⟨aad, ct, receipt, hcrypto, haad, hct, hfree, hkey, heq⟩
    . simp only [RaisesUnchanged, step, heq]
      exact ⟨by simp, hinv⟩
    . simp only [RaisesUnchanged, step, heq]
      refine ⟨by simp, ?_⟩
      intro r hr
      rcases List.mem_cons.mp hr with rfl | hr
      . exact ⟨aad, env.freshKey, env.nonce, ct, hcrypto, haad, by simp, by simp, env.length_nonce,
          hct⟩
      . exact (hinv r hr).of_set _ _ hfree hkey
  | retrieve => exact ⟨trivial, hinv⟩
  | shred keyId =>
    refine ⟨trivial, ?_⟩
    simp only [step, KeyRing.cryptoShred]
    cases hcontains : w.state.keys.contains keyId with
    | true =>
      intro r hr
      simp only [List.mem_filter, decide_eq_true_eq] at hr
      exact (hinv r hr.1).of_erase hr.2
    | false =>
      intro r hr
      refine (hinv r hr).of_erase ?_
      rintro rfl
      rcases hinv r hr with ⟨_, _, _, _, _, _, hkey, _⟩
      rw [(Dict.contains_eq_false_iff _ _).mp hcontains] at hkey
      simp at hkey

variable (cfg)

def start (objects : Dict Str Bytes) : World := ⟨⟨objects, .empty⟩, []⟩

/--
Both laws hold along every run whose stores are all admissible, whatever the directory held before.
-/
theorem run_laws (objects : Dict Str Bytes) (ops : List Op)
    (h : Runs.EachStep (step cfg) (Admissible cfg) (start objects) ops)
    : Runs.EachStep (step cfg) (RaisesUnchanged cfg) (start objects) ops ∧
        Runs.EachState (step cfg) (Retrievable cfg) (start objects) ops := by
  have hstart : AllKept cfg (start objects) := by
    intro r hr
    simp [start] at hr
  rcases Runs.EachStep.invariant step_of_admissible hstart h with ⟨hsteps, hstates⟩
  exact ⟨hsteps, hstates.mono fun _ => AllKept.retrievable⟩

def realConfig : Config where
  sha256
  sha3_256
  aesgcm := aes256Gcm
  haveCrypto := true

def surroundings (freshKey nonce : UInt8) : Surroundings where
  freshKey := List.replicate 32 freshKey
  nonce := List.replicate 12 nonce
  written := true
  length_freshKey := by simp
  length_nonce := by simp

/--
Two different ids, a retrieval and a shred in between.
-/
def admissibleRun : List Op :=
  [.store [0x31] (txt "a") (surroundings 1 1), .store [0x32] (txt "b") (surroundings 2 2),
   .retrieve (txt "a") [], .shred (keyIdOf realConfig ((txt "a:key").flatMap Utf8.encodePoint)),
   .store [0x33] (txt "c") (surroundings 3 3)]

theorem run_laws_admissibleRun
    : Runs.EachStep (step realConfig) (RaisesUnchanged realConfig) (start .empty) admissibleRun ∧
        Runs.EachState (step realConfig) (Retrievable realConfig) (start .empty) admissibleRun :=
  run_laws realConfig .empty admissibleRun (by decide +kernel)

def repeatedId : List Op :=
  [.store [0x31] (txt "a") (surroundings 1 1), .store [0x32] (txt "a") (surroundings 2 2)]

/--
The second store of one id is refused, but it has put a new key in the place of the old one: the
record of the first store is lost.
-/
theorem laws_broken_by_repeated_id
    : ¬Runs.EachStep (step realConfig) (RaisesUnchanged realConfig) (start .empty) repeatedId ∧
        ¬Runs.EachState (step realConfig) (Retrievable realConfig) (start .empty) repeatedId := by
  constructor
  . decide +kernel
  . intro hstates
    exact absurd (hstates repeatedId List.prefix_rfl) (by decide +kernel)

/--
A store that is refused after it drew its key breaks the first law, unless the new key happens to be
the one that was there.
-/
theorem not_raisesUnchanged (w : World) (record : Bytes) (recordId : Str) (env : Surroundings)
    (aad : Bytes) (hcrypto : cfg.haveCrypto = true) (haad : Utf8.encode? recordId = some aad)
    (hnew : w.state.keys.get? (keyIdOf cfg (aad ++ (txt ":key").flatMap Utf8.encodePoint))
      ≠ some env.freshKey)
    (hrefused : w.state.objects.contains (LocalWormStore.path cfg aad) = true ∨
      env.written = false ∨ cfg.aesgcm.maxSize < record.length ∨
      cfg.aesgcm.maxSize < aad.length)
    : ¬RaisesUnchanged cfg w (.store record recordId env) := by
  intro hlaw
  have hraise : ∃ e, storeRecordEscrow cfg w.state record recordId env =
      (⟨w.state.objects, w.state.keys.set
        (keyIdOf cfg (aad ++ (txt ":key").flatMap Utf8.encodePoint)) env.freshKey⟩, .error e) := by
    cases hct : cfg.aesgcm.encrypt env.freshKey env.nonce record aad with
    | none => exact ⟨.overflow, by simp [storeRecordEscrow, hcrypto, encode?_append_key, haad, hct,
        KeyRing.newKey]⟩
    | some ct =>
      have hsizes := (cfg.aesgcm.encrypt_isSome env.freshKey env.nonce record aad
        env.length_freshKey env.length_nonce).mp (by simp [hct])
      cases hpath : w.state.objects.contains (LocalWormStore.path cfg aad) with
      | true => exact ⟨.alreadyWritten recordId, by simp [storeRecordEscrow, hcrypto,
          encode?_append_key, haad, hct, KeyRing.newKey, LocalWormStore.put, hpath]⟩
      | false =>
        have hwritten : env.written = false := by
          rcases hrefused with h | h | h | h
          . simp [hpath] at h
          . exact h
          . omega
          . omega
        exact ⟨.outputNotWritten, by simp [storeRecordEscrow, hcrypto, encode?_append_key, haad,
          hct, KeyRing.newKey, LocalWormStore.put, hpath, hwritten]⟩
  rcases hraise with ⟨e, heq⟩
  simp only [RaisesUnchanged, heq] at hlaw
  apply hnew
  rw [← hlaw]
  simp

end

end Worm
end CryptoValid
