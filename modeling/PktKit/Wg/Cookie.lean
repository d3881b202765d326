import PktKit.Foundations.Tables
import PktKit.Wg.Crypto

/-! # Cookies and the rate limit

The responder checks MAC1 always and MAC2 under load, and answers with a cookie bound to the source;
the initiator writes both. Under load each source is held to its share.
-/

namespace PktKit.Wg
open Foundations

def COOKIE_REFRESH_TIME : Duration := .fromSecs 120
def COOKIE_SECRET_LATENCY : Duration := .fromSecs 5

/-! ## The responder -/

structure CookieChecker where
  mac1Key : Bytes 32
  secret : Bytes 32
  secretSet : Instant
  encryptionKey : Bytes 32

/-- MAC1 of a handshake message made with `key`: the last but one 16 bytes. -/
def checkMac1With (P : Primitives) (key : Bytes 32) (msg : List UInt8) : Bool :=
  if msg.length < 2 * 16 then false
  else
    let smac2 := msg.length - 16
    let smac1 := smac2 - 16
    (P.blake2sMac128 key.val (msg.take smac1)).val == slice msg smac1 smac2

namespace CookieChecker

variable (P : Primitives)

def new (localPub : PublicKey) (secret : Bytes 32) (now : Instant) : CookieChecker where
  mac1Key := P.calculateMac1Key localPub
  secret := secret
  secretSet := now
  encryptionKey := P.calculateCookieKey localPub

/-- Rotate the secret once it is too old. -/
def maybeRefresh (c : CookieChecker) (random : Bytes 32) (now again : Instant) : CookieChecker :=
  if now - c.secretSet > COOKIE_REFRESH_TIME then { c with secret := random, secretSet := again } else c

def checkMac1 (c : CookieChecker) (msg : List UInt8) : Bool := checkMac1With P c.mac1Key msg

def checkMac2 (c : CookieChecker) (msg src : List UInt8) (now : Instant) : Bool :=
  if now - c.secretSet > COOKIE_REFRESH_TIME then false
  else if msg.length < 16 then false
  else
    let cookie := P.blake2sMac128 c.secret.val src
    let smac2 := msg.length - 16
    (P.blake2sMac128 cookie.val (msg.take smac2)).val == msg.drop smac2

def generateReply (c : CookieChecker) (src : List UInt8) (receiverIdx : ℕ) (initMac1 : List UInt8)
    (nonce : Bytes 24) : List UInt8 :=
  let cookie := P.blake2sMac128 c.secret.val src
  leBytes 4 3 ++ leBytes 4 receiverIdx ++ nonce.val ++ P.xaeadSeal c.encryptionKey nonce cookie.val initMac1

end CookieChecker

/-! ## The initiator -/

structure CookieGenerator where
  mac1Key : Bytes 32
  encryptionKey : Bytes 32
  cookie : Bytes 16
  cookieSet : Option Instant
  lastMac1 : Bytes 16
  hasLastMac1 : Bool

namespace CookieGenerator

variable (P : Primitives)

def new (remotePub : PublicKey) : CookieGenerator where
  mac1Key := P.calculateMac1Key remotePub
  encryptionKey := P.calculateCookieKey remotePub
  cookie := Bytes.zero 16
  cookieSet := none
  lastMac1 := Bytes.zero 16
  hasLastMac1 := false

/-- Write MAC1, and MAC2 if a fresh cookie is held, over the last 32 bytes. -/
def addMacs (g : CookieGenerator) (msg : List UInt8) (now : Instant) : CookieGenerator × List UInt8 :=
  if msg.length < 16 * 2 then (g, msg)
  else
    let smac2 := msg.length - 16
    let smac1 := smac2 - 16
    let mac1 := P.blake2sMac128 g.mac1Key.val (msg.take smac1)
    let g := { g with lastMac1 := mac1, hasLastMac1 := true }
    let body := msg.take smac1 ++ mac1.val
    let fresh := g.cookieSet.any fun t => now - t < COOKIE_REFRESH_TIME - COOKIE_SECRET_LATENCY
    let mac2 := if fresh then P.blake2sMac128 g.cookie.val body else Bytes.zero 16
    (g, body ++ mac2.val)

def consumeReply (g : CookieGenerator) (nonce : Bytes 24) (ct : List UInt8) (now : Instant) :
    Except Failure CookieGenerator :=
  if !g.hasLastMac1 then .error (.error .invalidData "cookie reply with no prior initiation")
  else do
    let pt ← P.xaeadOpen g.encryptionKey nonce ct g.lastMac1.val
    if pt.length ≠ 16 then .error (.error .invalidData "decrypted cookie wrong size")
    else .ok { g with cookie := Bytes.ofSlice 16 pt, cookieSet := some now }

end CookieGenerator

/-! ## The rate limit -/

inductive IpAddr
  | v4 (a : Bytes 4)
  | v6 (a : Bytes 16)
deriving DecidableEq

/-- A source address and port. -/
structure SocketAddr where
  ip : IpAddr
  port : UInt16

inductive Source
  | v4 (a : Bytes 4)
  | v6 (a : Bytes 8)
deriving DecidableEq

/-- An IPv4 address, one mapped into IPv6 included, or an IPv6 /64. -/
def Source.of : IpAddr → Source
  | .v4 a => .v4 a
  | .v6 a =>
    if a.val.take 12 = List.replicate 10 0 ++ [0xff, 0xff] then .v4 (Bytes.ofSlice 4 (a.val.drop 12))
    else .v6 (Bytes.ofSlice 8 (a.val.take 8))

structure Bucket where
  last : Instant
  tokens : ℕ

def PACKET_COST : ℕ := 1000000000 / 20
def TOKEN_MAX : ℕ := PACKET_COST * 5
def MAX_ENTRIES : ℕ := 8192 * 8
def GC_INTERVAL : Duration := .fromSecs 1

structure RateLimiter where
  table : Table Source Bucket := ∅
  lastGc : Option Instant := none

namespace RateLimiter

/-- Drop the sources idle for a second, at most once a second. -/
def gc (r : RateLimiter) (now : Instant) : RateLimiter :=
  if r.lastGc.any fun t => now - t < GC_INTERVAL then r
  else { table := r.table.retain fun _ b => now - b.last ≤ GC_INTERVAL, lastGc := some now }

def allow (r : RateLimiter) (ip : IpAddr) (now : Instant) : RateLimiter × Bool :=
  let r := r.gc now
  let src := Source.of ip
  match r.table.lookup src with
  | some b =>
    let tokens := min TOKEN_MAX (b.tokens + min (now - b.last) TOKEN_MAX)
    let ok : Bool := decide (PACKET_COST ≤ tokens)
    let b : Bucket := ⟨max b.last now, if ok then tokens - PACKET_COST else tokens⟩
    ({ r with table := r.table.insert src b }, ok)
  | none =>
    if MAX_ENTRIES ≤ r.table.entries.length then (r, false)
    else ({ r with table := r.table.insert src ⟨now, TOKEN_MAX - PACKET_COST⟩ }, true)

end RateLimiter

end PktKit.Wg
