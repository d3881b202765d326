import PktKit.Foundations.Octets
import PktKit.Time

/-! # The primitives of the handshake

The hash, the key derivations, the AEADs and X25519 are parameters: what the library underneath
computes. What the code builds from them, the transcript rules and the zero test of Diffie-Hellman
among it, is as it stands.
-/

namespace PktKit.Wg
open Foundations

abbrev Bytes (n : ℕ) := { b : List UInt8 // b.length = n }

namespace Bytes

def zero (n : ℕ) : Bytes n := ⟨List.replicate n 0, List.length_replicate⟩

def ofSlice (n : ℕ) (l : List UInt8) : Bytes n := ⟨(l ++ List.replicate n 0).take n, by simp⟩

@[simp] theorem length_val {n : ℕ} (b : Bytes n) : b.val.length = n := b.property

theorem ofSlice_val {n : ℕ} (b : Bytes n) : ofSlice n b.val = b := by
  apply Subtype.ext
  simp [ofSlice, b.property]

end Bytes

abbrev PublicKey := Bytes 32
abbrev PrivateKey := Bytes 32
abbrev PresharedKey := Bytes 32

inductive ErrorKind
  | permissionDenied
  | invalidData
  | notFound
  | addrInUse
  | notConnected
  | invalidInput
  | other
deriving DecidableEq, Repr

/-- Why a call did not return a value. -/
inductive Failure
  | error (kind : ErrorKind) (text : String)
  /-- the loop that draws indexes has not drawn a free one yet -/
  | drawing
deriving DecidableEq, Repr

/-- What the library underneath computes. -/
structure Primitives where
  blake2s256 : List UInt8 → Bytes 32
  hmac : List UInt8 → List UInt8 → Bytes 32
  blake2sMac128 : List UInt8 → List UInt8 → Bytes 16
  x25519 : Bytes 32 → Bytes 32 → Bytes 32
  basePoint : Bytes 32
  /-- key, nonce, associated data and plaintext give a ciphertext and a tag -/
  encrypt : Bytes 32 → Bytes 12 → List UInt8 → List UInt8 → List UInt8 × Bytes 16
  decrypt : Bytes 32 → Bytes 12 → List UInt8 → List UInt8 → Bytes 16 → Option (List UInt8)
  xencrypt : Bytes 32 → Bytes 24 → List UInt8 → List UInt8 → List UInt8 × Bytes 16
  xdecrypt : Bytes 32 → Bytes 24 → List UInt8 → List UInt8 → Bytes 16 → Option (List UInt8)

structure Primitives.Lawful (P : Primitives) : Prop where
  encrypt_length : ∀ k n ad pt, (P.encrypt k n ad pt).1.length = pt.length
  decrypt_encrypt : ∀ k n ad pt, P.decrypt k n ad (P.encrypt k n ad pt).1 (P.encrypt k n ad pt).2 = some pt
  dh_comm : ∀ a b, P.x25519 a (P.x25519 b P.basePoint) = P.x25519 b (P.x25519 a P.basePoint)
  /-- the base point has prime order, and no clamped scalar is a multiple of it -/
  dh_ne_zero : ∀ a b, P.x25519 a (P.x25519 b P.basePoint) ≠ Bytes.zero 32

def ascii (s : String) : List UInt8 := s.toList.map fun c => UInt8.ofNat c.toNat

def WG_LABEL_MAC1 : List UInt8 := ascii "mac1----"
def WG_LABEL_COOKIE : List UInt8 := ascii "cookie--"
def NOISE_CONSTRUCTION : List UInt8 := ascii "Noise_IKpsk2_25519_ChaChaPoly_BLAKE2s"
def WG_IDENTIFIER : List UInt8 := ascii "WireGuard v1 zx2c4 Jason@zx2c4.com"

namespace Primitives

variable (P : Primitives)

/-! ## The transcript -/

def mixHash (h : Bytes 32) (data : List UInt8) : Bytes 32 := P.blake2s256 (h.val ++ data)

def kdf1 (key input : List UInt8) : Bytes 32 := P.hmac (P.hmac key input).val [1]

def kdf2 (key input : List UInt8) : Bytes 32 × Bytes 32 :=
  let prk := P.hmac key input
  let t0 := P.hmac prk.val [1]
  (t0, P.hmac prk.val (t0.val ++ [2]))

def kdf3 (key input : List UInt8) : Bytes 32 × Bytes 32 × Bytes 32 :=
  let prk := P.hmac key input
  let t0 := P.hmac prk.val [1]
  let t1 := P.hmac prk.val (t0.val ++ [2])
  (t0, t1, P.hmac prk.val (t1.val ++ [3]))

def mixPsk (chainingKey hash : Bytes 32) (psk : PresharedKey) : Bytes 32 × Bytes 32 × Bytes 32 :=
  let (chain, tau, key) := P.kdf3 chainingKey.val psk.val
  (chain, P.mixHash hash tau.val, key)

def mixKey (c : Bytes 32) (data : List UInt8) : Bytes 32 := P.kdf1 c.val data

def initialChainKey : Bytes 32 := P.blake2s256 NOISE_CONSTRUCTION

def initialHash : Bytes 32 := P.mixHash P.initialChainKey WG_IDENTIFIER

/-! ## Keys -/

def clamp (sk : Bytes 32) : PrivateKey :=
  ⟨(sk.val.modify 0 (· &&& 248)).modify 31 fun b => (b &&& 127) ||| 64, by simp [sk.property]⟩

def x25519Public (sk : PrivateKey) : PublicKey := P.x25519 sk P.basePoint

/-- Diffie-Hellman; a small-order key gives all zeros, which is an error. -/
def x25519Dh (sk : PrivateKey) (pk : PublicKey) : Except Failure (Bytes 32) :=
  let shared := P.x25519 sk pk
  if shared.val.foldl (· ||| ·) 0 = 0 then
    .error (.error .invalidData "X25519 with a small-order public key")
  else .ok shared

def labelHash (label : List UInt8) (pk : PublicKey) : Bytes 32 := P.blake2s256 (label ++ pk.val)

def calculateMac1Key (pk : PublicKey) : Bytes 32 := P.labelHash WG_LABEL_MAC1 pk

def calculateCookieKey (pk : PublicKey) : Bytes 32 := P.labelHash WG_LABEL_COOKIE pk

/-! ## Sealing and opening -/

def counterNonce (counter : ℕ) : Bytes 12 := ⟨List.replicate 4 0 ++ leBytes 8 counter, by simp⟩

def aeadSeal (key : Bytes 32) (counter : ℕ) (pt ad : List UInt8) : List UInt8 :=
  let (ct, tag) := P.encrypt key (counterNonce counter) ad pt
  ct ++ tag.val

def splitTag (ct : List UInt8) : Except Failure (List UInt8 × Bytes 16) :=
  if ct.length < 16 then
    .error (.error .invalidData "aead open: shorter than the authentication tag")
  else .ok (ct.take (ct.length - 16), Bytes.ofSlice 16 (ct.drop (ct.length - 16)))

def aeadOpen (key : Bytes 32) (counter : ℕ) (ct ad : List UInt8) : Except Failure (List UInt8) := do
  let (body, tag) ← splitTag ct
  match P.decrypt key (counterNonce counter) ad body tag with
  | some pt => .ok pt
  | none => .error (.error .invalidData "aead open failed")

def xaeadSeal (key : Bytes 32) (nonce : Bytes 24) (pt ad : List UInt8) : List UInt8 :=
  let (ct, tag) := P.xencrypt key nonce ad pt
  ct ++ tag.val

def xaeadOpen (key : Bytes 32) (nonce : Bytes 24) (ct ad : List UInt8) : Except Failure (List UInt8) := do
  let (body, tag) ← splitTag ct
  match P.xdecrypt key nonce ad body tag with
  | some pt => .ok pt
  | none => .error (.error .invalidData "xaead open failed")

/-- Another text for whatever went wrong. -/
def orElse {α : Type} (r : Except Failure α) (kind : ErrorKind) (text : String) : Except Failure α :=
  match r with
  | .ok a => .ok a
  | .error _ => .error (.error kind text)

theorem foldl_or_eq_zero {l : List UInt8} {a : UInt8} (h : l.foldl (· ||| ·) a = 0) : a = 0 ∧ ∀ b ∈ l, b = 0 := by
  induction l generalizing a with
  | nil => exact ⟨h, by simp⟩
  | cons b l ih =>
    obtain ⟨hab, hl⟩ := ih h
    rw [UInt8.or_eq_zero_iff] at hab
    exact ⟨hab.1, List.forall_mem_cons.mpr ⟨hab.2, hl⟩⟩

section

variable {P} (hP : P.Lawful)
include hP

theorem aeadSeal_length (key : Bytes 32) (counter : ℕ) (pt ad : List UInt8) :
    (P.aeadSeal key counter pt ad).length = pt.length + 16 := by
  simp [aeadSeal, hP.encrypt_length, (P.encrypt key (counterNonce counter) ad pt).2.property]

theorem aeadOpen_aeadSeal (key : Bytes 32) (counter : ℕ) (pt ad : List UInt8) :
    P.aeadOpen key counter (P.aeadSeal key counter pt ad) ad = .ok pt := by
  have hl := aeadSeal_length hP key counter pt ad
  have hb : (P.aeadSeal key counter pt ad).take pt.length = (P.encrypt key (counterNonce counter) ad pt).1 := by
    rw [aeadSeal, ← hP.encrypt_length key (counterNonce counter) ad pt, List.take_left]
  have ht : (P.aeadSeal key counter pt ad).drop pt.length =
      (P.encrypt key (counterNonce counter) ad pt).2.val := by
    rw [aeadSeal, ← hP.encrypt_length key (counterNonce counter) ad pt, List.drop_left]
  simp only [aeadOpen, splitTag, hl, Nat.add_sub_cancel, hb, ht, Bytes.ofSlice_val]
  simp [bind, Except.bind, hP.decrypt_encrypt]

theorem x25519Dh_public (a b : PrivateKey) :
    P.x25519Dh a (P.x25519Public b) = .ok (P.x25519 a (P.x25519Public b)) := by
  rw [x25519Dh, if_neg]
  intro h
  apply hP.dh_ne_zero a b
  apply Subtype.ext
  exact List.eq_replicate_iff.mpr ⟨(P.x25519 a _).property, (foldl_or_eq_zero h).2⟩

end

/-! ## A stand-in -/

/-- Primitives that keep nothing secret, to run the protocol with: a key is its first byte. -/
def plain : Primitives where
  blake2s256 _ := Bytes.zero 32
  hmac _ _ := Bytes.zero 32
  blake2sMac128 _ _ := Bytes.zero 16
  x25519 a b := ⟨(a.val.headD 0 ^^^ b.val.headD 0) :: 1 :: List.replicate 30 0, by simp⟩
  basePoint := Bytes.zero 32
  encrypt _ _ _ pt := (pt, Bytes.zero 16)
  decrypt _ _ _ ct _ := some ct
  xencrypt _ _ _ pt := (pt, Bytes.zero 16)
  xdecrypt _ _ _ ct _ := some ct

theorem plain_lawful : plain.Lawful where
  encrypt_length _ _ _ _ := rfl
  decrypt_encrypt _ _ _ _ := rfl
  dh_comm a b := by
    apply Subtype.ext
    simp only [plain, Bytes.zero, List.headD_cons, List.cons.injEq, and_true]
    rw [← UInt8.xor_assoc, ← UInt8.xor_assoc, UInt8.xor_comm (a.val.headD 0)]
  dh_ne_zero a b h := by
    have := congrArg (fun x : Bytes 32 => x.val[1]?) h
    simp [plain, Bytes.zero] at this

end Primitives

end PktKit.Wg
