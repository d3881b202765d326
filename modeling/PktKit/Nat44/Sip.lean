import PktKit.Foundations.Lines

/-! # SIP messages on a TCP stream

The SIP helper rewrites the addresses in a message's header lines, has the media addresses of an SDP body
rewritten, and sets the Content-Length of a body that changed. A segment may carry several messages, each as
long as its Content-Length says; what follows the last complete one goes on as it is.
-/

namespace PktKit.Nat44.Sip
open Foundations

abbrev Bytes := List UInt8

def ascii (s : List Char) : Bytes := s.map fun c => UInt8.ofNat c.toNat

def CR : UInt8 := 13
def LF : UInt8 := 10

def isDigit (b : UInt8) : Bool := 48 ≤ b && b ≤ 57

/-- What `trim_ascii` takes off either end. -/
def isSpace (b : UInt8) : Bool := b == 32 || b == 9 || b == 10 || b == 12 || b == 13

def lower (b : UInt8) : UInt8 := if 65 ≤ b ∧ b ≤ 90 then b + 32 else b
def upper (b : UInt8) : UInt8 := if 97 ≤ b ∧ b ≤ 122 then b - 32 else b

def eqIgnoreCase (a b : Bytes) : Bool := a.map lower == b.map lower

def trimStart (l : Bytes) : Bytes := l.dropWhile isSpace
def trim (l : Bytes) : Bytes := (trimStart l).rdropWhile isSpace

def decimal (n : ℕ) : Bytes := ascii (Nat.toDigits 10 n)

def dotted (a : BitVec 32) : Bytes :=
  decimal (a.toNat / 2 ^ 24) ++ 46 :: decimal (a.toNat / 2 ^ 16 % 256) ++
    46 :: decimal (a.toNat / 2 ^ 8 % 256) ++ 46 :: decimal (a.toNat % 256)

def parse (v : Bytes) : Option ℕ :=
  let digits := if v.head? = some 43 then v.tail else v
  if digits ≠ [] ∧ digits.all isDigit then some (digits.foldl (fun n b => 10 * n + (b.toNat - 48)) 0) else none

/-! ## Addresses in header lines -/

/-- The bytes from a place on, where `k` bytes of a match are still to be passed and `prev` stands before. -/
def replaceFrom (old new : Bytes) (portless : Option Bytes) : ℕ → Option UInt8 → Bytes → Bytes
  | _, _, [] => []
  | k + 1, _, b :: data => replaceFrom old new portless k (some b) data
  | 0, prev, b :: data =>
    let next := ((b :: data).drop old.length).head?
    if old.isPrefixOf (b :: data) ∧ ¬prev.any (fun p => isDigit p || p == 46) ∧ ¬next.any isDigit then
      let suffix := if prev.any [32, 9, 64, 58].contains ∧ next ≠ some 58 then portless.getD [] else []
      new ++ suffix ++ replaceFrom old new portless (old.length - 1) (some b) data
    else
      b :: replaceFrom old new portless 0 (some b) data

/-- Replace every occurrence of the address `old` that stands on its own; `portless` follows one that names
a host without a port. -/
def replaceAddrAs (data old new : Bytes) (portless : Option Bytes) : Bytes :=
  if old = [] then data else replaceFrom old new portless 0 none data

def SIP_PORT : UInt16 := 5060
def SIPS_PORT : UInt16 := 5061

def defaultPort (line : Bytes) : UInt16 :=
  let tls := [ascii ['/', 'T', 'L', 'S'], ascii ['S', 'I', 'P', 'S', ':'],
    ascii ['T', 'R', 'A', 'N', 'S', 'P', 'O', 'R', 'T', '=', 'T', 'L', 'S']].any fun n =>
      (findIn n (line.map upper)).isSome
  if tls then SIPS_PORT else SIP_PORT

def rewriteLine (start old new : Bytes) (portless : Option (UInt16 × UInt16)) (line : Bytes) : Bytes :=
  if eqIgnoreCase (line.take start.length) start then
    let suffix := portless.bind fun p =>
      if p.1 = defaultPort line ∧ p.2 ≠ defaultPort line then some (58 :: decimal p.2.toNat) else none
    replaceAddrAs line old new suffix
  else line

/-- Replace `old` by `new` in every line that begins with `start`. The source keeps the payload if no line
changes, which joining its lines again gives too. -/
def sipRewriteHeader (payload start old new : Bytes) (portless : Option (UInt16 × UInt16)) : Bytes :=
  if old = new then payload
  else unlines CR LF ((lines CR LF payload).map (rewriteLine start old new portless))

/-! ## Header fields -/

/-- The value of the header on this line if it is one of `names`: what stands before it, the value, and what
follows it. -/
def valueIn (names : List Bytes) (line : Bytes) : Option (Bytes × Bytes × Bytes) :=
  if 58 ∈ line then
    let name := line.takeWhile (· ≠ 58)
    let value := line.drop (name.length + 1)
    if names.any (eqIgnoreCase (trim name)) then
      let start := name.length + 1 + (value.length - (trimStart value).length)
      let stop := start + (trim value).length
      some (line.take start, trim value, line.drop stop)
    else none
  else none

/-- The value of the first header called one of `names` among the lines. -/
def headerIn (names : List Bytes) : List Bytes → Option (Bytes × Bytes × Bytes)
  | [] => none
  | line :: ls =>
    match valueIn names line with
    | some (a, v, z) => some (a, v, unlines CR LF (z :: ls))
    | none => (headerIn names ls).map fun r => (line ++ CR :: LF :: r.1, r.2)

/-- Where the value of the first header called one of `names` lies in a message head, as the parts before it,
in it and after it. The start line is not a header. -/
def headerValue (head : Bytes) (names : List Bytes) : Option (Bytes × Bytes × Bytes) :=
  match lines CR LF head with
  | [] => none
  | first :: ls => (headerIn names ls).map fun r => (first ++ CR :: LF :: r.1, r.2)

def CONTENT_LENGTH : List Bytes :=
  [ascii ['c', 'o', 'n', 't', 'e', 'n', 't', '-', 'l', 'e', 'n', 'g', 't', 'h'], ascii ['l']]

def CONTENT_TYPE : List Bytes :=
  [ascii ['c', 'o', 'n', 't', 'e', 'n', 't', '-', 't', 'y', 'p', 'e'], ascii ['c']]

def contentLength (head : Bytes) : Option ℕ := (headerValue head CONTENT_LENGTH).bind fun r => parse r.2.1

def isSdp (head : Bytes) : Bool :=
  (headerValue head CONTENT_TYPE).any fun r =>
    eqIgnoreCase (trim (r.2.1.takeWhile (· ≠ 59)))
      (ascii ['a', 'p', 'p', 'l', 'i', 'c', 'a', 't', 'i', 'o', 'n', '/', 's', 'd', 'p'])

/-- The message with a new body, its Content-Length set to match. `headers` ends with the blank line. -/
def sipUpdateContentLength (headers body : Bytes) : Bytes :=
  match headerValue headers CONTENT_LENGTH with
  | some (a, _, z) => a ++ decimal body.length ++ z ++ body
  | none => headers ++ body

/-! ## Messages of a segment -/

/-- Two ends of line, the second of which makes a blank line. -/
def BLANK : Bytes := [CR, LF, CR, LF]

def startsMessage (first : Bytes) : Bool :=
  (ascii ['S', 'I', 'P', '/', '2', '.', '0', ' ']).isPrefixOf first ||
    (ascii [' ', 'S', 'I', 'P', '/', '2', '.', '0']).isSuffixOf first

def messageEnd (msg : Bytes) : Option ℕ :=
  if startsMessage ((lines CR LF msg).headD []) then
    (findIn BLANK msg).bind fun hdrEnd =>
      (contentLength (msg.take hdrEnd)).bind fun len =>
        if hdrEnd + 4 + len ≤ msg.length then some (hdrEnd + 4 + len) else none
  else none

/-- How many bytes of keep-alives come first. -/
def keepAlives : Bytes → ℕ
  | x :: y :: l => if x = CR ∧ y = LF then keepAlives l + 2 else 0
  | _ => 0

theorem messageEnd_bounds {msg : Bytes} {n : ℕ} (h : messageEnd msg = some n) : 0 < n ∧ n ≤ msg.length := by
  simp only [messageEnd] at h
  split at h
  · obtain ⟨hdrEnd, -, h⟩ := Option.bind_eq_some_iff.1 h
    obtain ⟨len, -, h⟩ := Option.bind_eq_some_iff.1 h
    split at h
    · obtain rfl := Option.some.inj h
      omega
    · simp at h
  · simp at h

/-- The complete messages of a payload, each with the keep-alives before it, and what is left after them. -/
def sipMessages (payload : Bytes) : List (Bytes × Bytes) × Bytes :=
  let msg := payload.drop (keepAlives payload)
  match _h : messageEnd msg with
  | none => ([], payload)
  | some n =>
    let r := sipMessages (msg.drop n)
    ((payload.take (keepAlives payload), msg.take n) :: r.1, r.2)
termination_by payload.length
decreasing_by
  have hn := messageEnd_bounds _h
  simp only [msg, List.length_drop] at hn ⊢
  omega

/-! ## Rewriting -/

/-- What the helper goes by: the mapping's two endpoints, the direction, and what rewriting makes of the
outbound SDP body of each of the payload's messages. -/
structure Exchange where
  insideIp : BitVec 32
  insidePort : UInt16
  outsideIp : BitVec 32
  outsidePort : UInt16
  outbound : Bool
  rewriteSdpOutbound : ℕ → Bytes → Bytes

/-- The starts of the header lines that carry addresses. -/
def ADDRESSED : List Bytes :=
  [ascii ['V', 'i', 'a', ':'], ascii ['v', ':'], ascii ['C', 'o', 'n', 't', 'a', 'c', 't', ':'], ascii ['m', ':']]

namespace Exchange

variable (x : Exchange)

def insideAddr : Bytes := dotted x.insideIp
def outsideAddr : Bytes := dotted x.outsideIp
def insideHp : Bytes := x.insideAddr ++ 58 :: decimal x.insidePort.toNat
def outsideHp : Bytes := x.outsideAddr ++ 58 :: decimal x.outsidePort.toNat

def hpFrom : Bytes := if x.outbound then x.insideHp else x.outsideHp
def hpTo : Bytes := if x.outbound then x.outsideHp else x.insideHp
def addrFrom : Bytes := if x.outbound then x.insideAddr else x.outsideAddr
def addrTo : Bytes := if x.outbound then x.outsideAddr else x.insideAddr

def portless : Option (UInt16 × UInt16) := if x.outbound then some (x.insidePort, x.outsidePort) else none

/-- The passes over the lines of a message: `address:port` first, then the bare address. -/
def headerPasses (msg : Bytes) : Bytes :=
  let hosts := ADDRESSED.foldl (fun msg start => sipRewriteHeader msg start x.hpFrom x.hpTo none) msg
  ADDRESSED.foldl (fun msg start => sipRewriteHeader msg start x.addrFrom x.addrTo x.portless) hosts

def sipRewriteSdpAddr (sdp : Bytes) : Bytes :=
  let connection := ascii ['c', '=', 'I', 'N', ' ', 'I', 'P', '4', ' ']
  replaceAddrAs sdp (connection ++ x.outsideAddr) (connection ++ x.insideAddr) none

/-- The rewritten SDP body of the payload's `n`th message. -/
def newSdp (n : ℕ) (sdp : Bytes) : Bytes :=
  if x.outbound then x.rewriteSdpOutbound n sdp else x.sipRewriteSdpAddr sdp

def rewriteMessage (n : ℕ) (msg : Bytes) : Bytes :=
  let payload := x.headerPasses msg
  match findIn BLANK payload with
  | none => payload
  | some sdpStart =>
    let sdpBody := payload.drop (sdpStart + 4)
    if isSdp (payload.take sdpStart) ∧ x.newSdp n sdpBody ≠ sdpBody then
      sipUpdateContentLength (payload.take (sdpStart + 4)) (x.newSdp n sdpBody)
    else payload

/-- The messages rewritten one by one, `n` having come before. -/
def rewriteMessages : ℕ → List (Bytes × Bytes) → List (Bytes × Bytes)
  | _, [] => []
  | n, (gap, msg) :: ms => (gap, x.rewriteMessage n msg) :: rewriteMessages (n + 1) ms

end Exchange

/-- Messages with the keep-alives before each, and what follows them, in a row. -/
def joined (r : List (Bytes × Bytes) × Bytes) : Bytes := (r.1.flatMap fun p => p.1 ++ p.2) ++ r.2

/-- The payload the helper makes of a TCP segment's. -/
def Exchange.newPayload (x : Exchange) (payload : Bytes) : Bytes :=
  joined (x.rewriteMessages 0 (sipMessages payload).1, (sipMessages payload).2)

/-! ## Numbers and addresses as text -/

/-- A byte of an address: a digit, a dot or a colon. -/
def Plain (b : UInt8) : Prop := isDigit b ∨ b = 46 ∨ b = 58

instance : DecidablePred Plain := fun _ => inferInstanceAs (Decidable (_ ∨ _ ∨ _))

theorem isDigit_of_mem_decimal {n : ℕ} {b : UInt8} (h : b ∈ decimal n) : isDigit b := by
  obtain ⟨c, hc, rfl⟩ := List.mem_map.1 h
  have hd := Nat.isDigit_of_mem_toDigits (by decide) (by decide) hc
  rw [Char.isDigit_iff_toNat] at hd
  have hz : '0'.toNat = 48 := rfl
  have hn : '9'.toNat = 57 := rfl
  simp only [isDigit, UInt8.le_iff_toNat_le, UInt8.toNat_ofNat', Bool.and_eq_true, decide_eq_true_eq]
  have e48 : (48 : UInt8).toNat = 48 := rfl
  have e57 : (57 : UInt8).toNat = 57 := rfl
  omega

theorem decimal_ne_nil (n : ℕ) : decimal n ≠ [] := by
  simp [decimal, ascii, Nat.toDigits_ne_nil]

theorem foldl_ascii {s : List Char} (h : ∀ c ∈ s, c.isDigit) (n : ℕ) :
    (ascii s).foldl (fun n b => 10 * n + (b.toNat - 48)) n = Nat.ofDigitChars 10 s n := by
  induction s generalizing n with
  | nil => rfl
  | cons c s ih =>
    have hd := h c List.mem_cons_self
    rw [Char.isDigit_iff_toNat] at hd
    have hn : '9'.toNat = 57 := rfl
    have hc : (UInt8.ofNat c.toNat).toNat = c.toNat := by
      rw [UInt8.toNat_ofNat']
      omega
    have e : ascii (c :: s) = UInt8.ofNat c.toNat :: ascii s := rfl
    rw [e, List.foldl_cons, hc, ih fun c' hc' => h c' (List.mem_cons_of_mem _ hc')]
    rfl

theorem parse_decimal (n : ℕ) : parse (decimal n) = some n := by
  have hdigits : (decimal n).all isDigit := List.all_eq_true.2 fun b hb => isDigit_of_mem_decimal hb
  have hplus : (decimal n).head? ≠ some 43 := by
    intro h
    exact absurd (isDigit_of_mem_decimal (List.mem_of_head? h)) (by decide)
  have hvalue := foldl_ascii (fun c hc => Nat.isDigit_of_mem_toDigits (b := 10) (n := n) (by decide)
    (by decide) hc) 0
  rw [Nat.ofDigitChars_toDigits (by decide) (by decide)] at hvalue
  simp only [parse, if_neg hplus, hdigits, decimal_ne_nil, ne_eq, not_false_eq_true, and_self, if_true]
  exact congrArg some hvalue

/-- The text of an address: it starts with a digit, has no byte but digits, dots and colons, and is longer than
three of them. -/
structure Literal (t : Bytes) : Prop where
  head : ∃ b l, t = b :: l ∧ isDigit b
  plain : ∀ b ∈ t, Plain b
  long : 3 < t.length

theorem plain_decimal {n : ℕ} {b : UInt8} (h : b ∈ decimal n) : Plain b := .inl (isDigit_of_mem_decimal h)

theorem literal_dotted (a : BitVec 32) : Literal (dotted a) := by
  have hlen (n : ℕ) : 0 < (decimal n).length := List.length_pos_of_ne_nil (decimal_ne_nil n)
  refine ⟨?_, ?_, ?_⟩
  · obtain ⟨b, l, he⟩ := List.exists_cons_of_ne_nil (decimal_ne_nil (a.toNat / 2 ^ 24))
    refine ⟨b, _, by rw [dotted, he]; rfl, isDigit_of_mem_decimal (he ▸ List.mem_cons_self)⟩
  · intro b hb
    simp only [dotted, List.mem_append, List.mem_cons] at hb
    have hdot : b = 46 → Plain b := fun h => .inr (.inl h)
    have hdec {n : ℕ} : b ∈ decimal n → Plain b := plain_decimal
    rcases hb with ((hb | hb | hb) | hb | hb) | hb | hb
    all_goals first | exact hdot hb | exact hdec hb
  · simp only [dotted, List.length_append, List.length_cons]
    have h1 := hlen (a.toNat / 2 ^ 24)
    omega

theorem Literal.withPort {t : Bytes} (h : Literal t) (port : ℕ) : Literal (t ++ 58 :: decimal port) := by
  refine ⟨?_, ?_, ?_⟩
  · obtain ⟨b, l, rfl, hb⟩ := h.head
    exact ⟨b, _, rfl, hb⟩
  · intro b hb
    rw [List.mem_append, List.mem_cons] at hb
    rcases hb with hb | rfl | hb
    · exact h.plain b hb
    · exact .inr (.inr rfl)
    · exact plain_decimal hb
  · have := h.long
    rw [List.length_append]
    omega

theorem Literal.ne_nil {t : Bytes} (h : Literal t) : t ≠ [] := List.ne_nil_of_length_pos (by have := h.long; omega)

variable (x : Exchange)

theorem literals : Literal x.hpFrom ∧ Literal x.hpTo ∧ Literal x.addrFrom ∧ Literal x.addrTo := by
  have hin : Literal x.insideAddr := literal_dotted _
  have hout : Literal x.outsideAddr := literal_dotted _
  rw [Exchange.hpFrom, Exchange.hpTo, Exchange.addrFrom, Exchange.addrTo]
  cases x.outbound
  · exact ⟨hout.withPort _, hin.withPort _, hout, hin⟩
  · exact ⟨hin.withPort _, hout.withPort _, hin, hout⟩

/-! ## Replacing an address in a line -/

theorem Plain.not_isSpace {b : UInt8} (h : Plain b) : ¬isSpace b := by
  intro hs
  simp only [isSpace, Bool.or_eq_true, beq_iff_eq] at hs
  rcases hs with (((rfl | rfl) | rfl) | rfl) | rfl
  all_goals exact absurd h (by decide)

theorem Plain.ne {b : UInt8} (h : Plain b) : b ≠ CR ∧ b ≠ LF ∧ b ≠ 32 := by
  have hs := h.not_isSpace
  refine ⟨?_, ?_, ?_⟩
  all_goals
    rintro rfl
    exact hs (by decide)

section Replace

variable (old new : Bytes) (portless : Option Bytes)

/-- What can stand at a place: the byte as it is, or the new address in place of an old one. -/
theorem replaceFrom_cases (prev : Option UInt8) (b : UInt8) (data : Bytes) :
    replaceFrom old new portless 0 prev (b :: data) = b :: replaceFrom old new portless 0 (some b) data ∨
      old <+: b :: data ∧ ∃ suffix ∈ [portless.getD [], []], replaceFrom old new portless 0 prev (b :: data) =
        new ++ suffix ++ replaceFrom old new portless (old.length - 1) (some b) data := by
  rw [replaceFrom]
  dsimp only
  split
  · rename_i h
    refine .inr ⟨List.isPrefixOf_iff_prefix.1 h.1, _, ?_, rfl⟩
    split <;> simp
  · exact .inl rfl

variable {old new portless} (hold : Literal old) (hnew : Literal new) (hsuffix : ∀ s ∈ portless, ∀ b ∈ s, Plain b)

include hold in
theorem replaceFrom_cons (prev : Option UInt8) {b : UInt8} (hb : ¬isDigit b) (data : Bytes) :
    replaceFrom old new portless 0 prev (b :: data) = b :: replaceFrom old new portless 0 (some b) data := by
  obtain h | ⟨⟨t, ht⟩, -⟩ := replaceFrom_cases old new portless prev b data
  · exact h
  · obtain ⟨d, l, rfl, hd⟩ := hold.head
    exact absurd ((List.cons.inj ht).1 ▸ hd) hb

include hsuffix in
theorem plain_suffix {s : Bytes} (hs : s ∈ [portless.getD [], []]) : ∀ b ∈ s, Plain b := by
  simp only [List.mem_cons, List.not_mem_nil, or_false] at hs
  rcases hs with rfl | rfl
  · cases portless with
    | none => simp
    | some s => exact hsuffix s rfl
  · simp

include hnew hsuffix in
/-- No end of line comes about. -/
theorem unbroken_replaceFrom {data : Bytes} (h : Unbroken CR LF data) (k : ℕ) (prev : Option UInt8) :
    Unbroken CR LF (replaceFrom old new portless k prev data) := by
  induction data generalizing k prev with
  | nil => simp [replaceFrom, Unbroken]
  | cons b data ih =>
    have htail : Unbroken CR LF data := (List.isChain_cons.1 h).2
    cases k with
    | succ k => exact ih htail k (some b)
    | zero =>
      obtain he | ⟨-, s, hs, he⟩ := replaceFrom_cases old new portless prev b data
      · rw [he]
        refine List.isChain_cons.2 ⟨fun y hy hbreak => ?_, ih htail 0 _⟩
        -- The byte after this one is the same as before or starts an address.
        cases data with
        | nil => simp [replaceFrom] at hy
        | cons b' data =>
          obtain he | ⟨-, s, -, he⟩ :=
            replaceFrom_cases old new portless (some b) b' data
          · rw [he] at hy
            obtain rfl : b' = y := by simpa using hy
            exact (List.isChain_cons_cons.1 h).1 hbreak
          · obtain ⟨d, l, rfl, -⟩ := hnew.head
            rw [he] at hy
            obtain rfl : d = y := by simpa using hy
            exact (hnew.plain d List.mem_cons_self).ne.2.1 hbreak.2
      · rw [he]
        have hplain : ∀ b ∈ new ++ s, Plain b := fun b hb =>
          (List.mem_append.1 hb).elim (hnew.plain b) (plain_suffix hsuffix hs b)
        have hne : new ++ s ≠ [] := by simp [hnew.ne_nil]
        exact Unbroken.join (x := []) (by simp [Unbroken]) (ih htail _ _) hne
          (fun hc => (hplain _ hc).ne.1 rfl) fun hd => (hplain _ hd).ne.2.1 rfl

end Replace

def VERSION : Bytes := ascii [' ', 'S', 'I', 'P', '/', '2', '.', '0']

section Replace

variable {old : Bytes} (hold : Literal old) (new : Bytes) (portless : Option Bytes)

include hold in
/-- Bytes with no digit among them stay at the start of a line. -/
theorem replaceFrom_append {start : Bytes} (h : ∀ b ∈ start, ¬isDigit b) (prev : Option UInt8) (data : Bytes) :
    ∃ prev', replaceFrom old new portless 0 prev (start ++ data) =
      start ++ replaceFrom old new portless 0 prev' data := by
  induction start generalizing prev with
  | nil => exact ⟨prev, rfl⟩
  | cons b start ih =>
    obtain ⟨prev', he⟩ := ih (fun b' hb' => h b' (List.mem_cons_of_mem _ hb')) (some b)
    exact ⟨prev', by rw [List.cons_append, replaceFrom_cons hold prev (h b List.mem_cons_self), he]; rfl⟩

include hold in
/-- Where there is no room for an address, everything stays. -/
theorem replaceFrom_short {data : Bytes} (h : data.length ≤ 3) (prev : Option UInt8) :
    replaceFrom old new portless 0 prev data = data := by
  induction data generalizing prev with
  | nil => rfl
  | cons b data ih =>
    obtain he | ⟨hp, -⟩ := replaceFrom_cases old new portless prev b data
    · rw [he, ih (by rw [List.length_cons] at h; omega)]
    · have hlong := hold.long
      have hle := hp.length_le
      omega

include hold in
theorem version_replaceFrom (data : Bytes) (k : ℕ) (hk : k ≤ data.length) (prev : Option UInt8) :
    VERSION <:+ replaceFrom old new portless k prev (data ++ VERSION) := by
  induction data generalizing k prev with
  | nil =>
    obtain rfl : k = 0 := by simpa using hk
    have hcut : VERSION = [32, 83, 73, 80, 47] ++ [50, 46, 48] := by decide
    have hstart : ∀ b ∈ ([32, 83, 73, 80, 47] : Bytes), ¬isDigit b := by simp [isDigit]
    obtain ⟨prev', he⟩ := replaceFrom_append hold new portless hstart prev [50, 46, 48]
    rw [List.nil_append, hcut, he, replaceFrom_short hold new portless (by decide)]
  | cons b data ih =>
    cases k with
    | succ k => exact ih k (by simpa using hk) (some b)
    | zero =>
      obtain he | ⟨⟨t, ht⟩, s, -, he⟩ :=
        replaceFrom_cases old new portless prev b (data ++ VERSION)
      · rw [List.cons_append, he]
        exact (ih 0 (Nat.zero_le _) (some b)).trans (List.suffix_cons _ _)
      · rw [List.cons_append, he]
        refine (ih _ ?_ (some b)).trans (List.suffix_append _ _)
        -- The address ends before the blank that starts the version.
        rw [← List.cons_append, List.append_eq_append_iff] at ht
        obtain ⟨a, ha, -⟩ | ⟨a, ha, hv⟩ := ht
        · have hlen := congrArg List.length ha
          rw [List.length_append, List.length_cons] at hlen
          omega
        · cases a with
          | nil => simp [ha]
          | cons e a =>
            obtain rfl : 32 = e := (List.cons.inj hv).1
            exact absurd rfl (hold.plain 32 (by simp [ha])).ne.2.2

end Replace

/-! ## Lines with addresses -/

def AddressName (w : Bytes) : Prop :=
  w.map lower ∈ [ascii ['v', 'i', 'a'], ascii ['v'], ascii ['c', 'o', 'n', 't', 'a', 'c', 't'], ascii ['m']]

def Addressed (line : Bytes) : Prop := ∃ w t, line = w ++ 58 :: t ∧ AddressName w

theorem isLetter_of_lower {b : UInt8} (h : 97 ≤ lower b ∧ lower b ≤ 122) : ¬isDigit b ∧ b ≠ 58 ∧ ¬isSpace b := by
  have hletter : ∀ b : Fin 256, 97 ≤ lower (UInt8.ofNat b) ∧ lower (UInt8.ofNat b) ≤ 122 →
      ¬isDigit (UInt8.ofNat b) ∧ UInt8.ofNat b ≠ 58 ∧ ¬isSpace (UInt8.ofNat b) := by decide +kernel
  have hb := hletter ⟨b.toNat, b.toNat_lt⟩
  simp only [UInt8.ofNat_toNat] at hb
  exact hb h

theorem AddressName.letters {w : Bytes} (h : AddressName w) : ∀ b ∈ w, ¬isDigit b ∧ b ≠ 58 ∧ ¬isSpace b := by
  intro b hb
  have hletters : ∀ n ∈ [ascii ['v', 'i', 'a'], ascii ['v'],
    ascii ['c', 'o', 'n', 't', 'a', 'c', 't'], ascii ['m']],
      ∀ e ∈ n, 97 ≤ e ∧ e ≤ 122 := by decide +kernel
  exact isLetter_of_lower (hletters _ h _ (List.mem_map_of_mem hb))

/-- The lines that a pass rewrites are those of an address header. -/
theorem addressed_of_start {start line : Bytes} (hstart : start ∈ ADDRESSED)
    (h : eqIgnoreCase (line.take start.length) start) : Addressed line := by
  have hname : ∃ n, start.map lower = n ++ [58] ∧
      n ∈ [ascii ['v', 'i', 'a'], ascii ['v'], ascii ['c', 'o', 'n', 't', 'a', 'c', 't'], ascii ['m']] := by
    simp only [ADDRESSED, List.mem_cons, List.not_mem_nil, or_false] at hstart
    rcases hstart with rfl | rfl | rfl | rfl
    · exact ⟨ascii ['v', 'i', 'a'], by decide, by decide⟩
    · exact ⟨ascii ['v'], by decide, by decide⟩
    · exact ⟨ascii ['c', 'o', 'n', 't', 'a', 'c', 't'], by decide, by decide⟩
    · exact ⟨ascii ['m'], by decide, by decide⟩
  obtain ⟨n, hn, hmem⟩ := hname
  have hmap : (line.take start.length).map lower = n ++ [58] := (beq_iff_eq.1 h).trans hn
  obtain ⟨w, r, htake, rfl, hr⟩ := List.map_eq_append_iff.1 hmap
  obtain ⟨b, rfl, hb⟩ := List.map_eq_singleton_iff.1 hr
  have hcolon : b = 58 := by
    have hall : ∀ b : Fin 256, lower (UInt8.ofNat b) = 58 → UInt8.ofNat b = 58 := by decide +kernel
    have hb' := hall ⟨b.toNat, b.toNat_lt⟩
    simp only [UInt8.ofNat_toNat] at hb'
    exact hb' hb
  refine ⟨w, line.drop start.length, ?_, hmem⟩
  rw [← hcolon, ← List.singleton_append, ← List.append_assoc, ← htake, List.take_append_drop]

/-- What a pass may do to a line: it keeps it in one piece, changes none but an address header's line, and
leaves that one such a line, and keeps the version at its end. -/
structure Tame (g : Bytes → Bytes) : Prop where
  unbroken : ∀ l, Unbroken CR LF l → Unbroken CR LF (g l)
  same : ∀ l, g l = l ∨ Addressed l ∧ Addressed (g l)
  version : ∀ l, VERSION <:+ l → VERSION <:+ g l

theorem Tame.id : Tame id := ⟨fun _ h => h, fun _ => .inl rfl, fun _ h => h⟩

theorem Tame.comp {g g' : Bytes → Bytes} (hg : Tame g) (hg' : Tame g') : Tame (g' ∘ g) := by
  refine ⟨fun l h => hg'.unbroken _ (hg.unbroken l h), fun l => ?_, fun l h => hg'.version _ (hg.version l h)⟩
  rcases hg.same l with h | ⟨hl, hgl⟩
  · rw [Function.comp_apply, h]
    exact hg'.same l
  · rcases hg'.same (g l) with h | ⟨-, hgl'⟩
    · exact .inr ⟨hl, by rw [Function.comp_apply, h]; exact hgl⟩
    · exact .inr ⟨hl, hgl'⟩

theorem tame_rewriteLine {start old new : Bytes} (hstart : start ∈ ADDRESSED) (hold : Literal old)
    (hnew : Literal new) (portless : Option (UInt16 × UInt16)) : Tame (rewriteLine start old new portless) := by
  have hcases (l : Bytes) : rewriteLine start old new portless l = l ∨
      Addressed l ∧ ∃ suffix : Option Bytes, (∀ s ∈ suffix, ∀ b ∈ s, Plain b) ∧
        rewriteLine start old new portless l = replaceFrom old new suffix 0 none l := by
    rw [rewriteLine]
    split
    · rename_i h
      refine .inr ⟨addressed_of_start hstart h, _, ?_, by rw [replaceAddrAs, if_neg hold.ne_nil]⟩
      intro s hs b hb
      obtain ⟨p, -, hp⟩ := Option.bind_eq_some_iff.1 hs
      split at hp
      · obtain rfl := Option.some.inj hp
        rcases List.mem_cons.1 hb with rfl | hb
        · exact .inr (.inr rfl)
        · exact plain_decimal hb
      · simp at hp
    · exact .inl rfl
  refine ⟨fun l h => ?_, fun l => ?_, fun l h => ?_⟩
  · obtain he | ⟨-, s, hs, he⟩ := hcases l
    · rwa [he]
    · rw [he]
      exact unbroken_replaceFrom hnew hs h 0 none
  · obtain he | ⟨hl, s, hs, he⟩ := hcases l
    · exact .inl he
    · refine .inr ⟨hl, ?_⟩
      obtain ⟨w, t, rfl, hw⟩ := hl
      have hstart : ∀ b ∈ w ++ [58], ¬isDigit b := by
        intro b hb
        rcases List.mem_append.1 hb with hb | hb
        · exact (hw.letters b hb).1
        · rw [List.mem_singleton.1 hb]
          decide
      obtain ⟨prev, hp⟩ := replaceFrom_append hold new s hstart none t
      rw [he, ← List.singleton_append, ← List.append_assoc, hp]
      exact ⟨w, replaceFrom old new s 0 prev t, by simp, hw⟩
  · obtain he | ⟨-, s, -, he⟩ := hcases l
    · rwa [he]
    · obtain ⟨data, rfl⟩ := h
      rw [he]
      exact version_replaceFrom hold new s data 0 (Nat.zero_le _) none

/-! ## Passes over the lines of a text -/

def linewise (g : Bytes → Bytes) (t : Bytes) : Bytes := unlines CR LF ((lines CR LF t).map g)

theorem CR_ne_LF : CR ≠ LF := by decide

section Linewise

variable {g g' : Bytes → Bytes}

theorem linewise_id (t : Bytes) : linewise id t = t := by
  rw [linewise, List.map_id, unlines_lines]

theorem lines_linewise (hg : Tame g) (t : Bytes) : lines CR LF (linewise g t) = (lines CR LF t).map g := by
  refine lines_unlines CR_ne_LF (by simp [lines_ne_nil]) fun l hl => ?_
  obtain ⟨l', hl', rfl⟩ := List.mem_map.1 hl
  exact hg.unbroken l' (unbroken_of_mem hl')

theorem linewise_comp (hg : Tame g) (t : Bytes) : linewise g' (linewise g t) = linewise (g' ∘ g) t := by
  rw [linewise, lines_linewise hg, List.map_map, linewise]

theorem linewise_append (t t' : Bytes) :
    linewise g (t ++ CR :: LF :: t') = linewise g t ++ CR :: LF :: linewise g t' := by
  rw [linewise, lines_append CR_ne_LF, List.map_append,
    unlines_append (by simp [lines_ne_nil]) (by simp [lines_ne_nil]), linewise, linewise]

end Linewise

/-- A run of passes rewrites the lines one by one. -/
theorem foldl_linewise {f : Bytes → Bytes → Bytes} {starts : List Bytes}
    (h : ∀ s ∈ starts, ∃ g, Tame g ∧ ∀ t, f t s = linewise g t) :
    ∃ g, Tame g ∧ ∀ t, starts.foldl f t = linewise g t := by
  induction starts with
  | nil => exact ⟨id, .id, fun t => (linewise_id t).symm⟩
  | cons s starts ih =>
    obtain ⟨g, hg, hs⟩ := h s List.mem_cons_self
    obtain ⟨g', hg', hrest⟩ := ih fun s hs => h s (List.mem_cons_of_mem _ hs)
    exact ⟨g' ∘ g, hg.comp hg', fun t => by rw [List.foldl_cons, hs, hrest, linewise_comp hg]⟩

theorem sipRewriteHeader_linewise {start old new : Bytes} (hstart : start ∈ ADDRESSED) (hold : Literal old)
    (hnew : Literal new) (portless : Option (UInt16 × UInt16)) :
    ∃ g, Tame g ∧ ∀ t, sipRewriteHeader t start old new portless = linewise g t := by
  by_cases he : old = new
  · exact ⟨id, .id, fun t => by rw [sipRewriteHeader, if_pos he, linewise_id]⟩
  · exact ⟨_, tame_rewriteLine hstart hold hnew portless, fun t => by rw [sipRewriteHeader, if_neg he, linewise]⟩

theorem headerPasses_linewise : ∃ g, Tame g ∧ ∀ t, x.headerPasses t = linewise g t := by
  obtain ⟨hpFrom, hpTo, haFrom, haTo⟩ := literals x
  obtain ⟨g, hg, hhosts⟩ := foldl_linewise fun s hs => sipRewriteHeader_linewise hs hpFrom hpTo none
  obtain ⟨g', hg', haddrs⟩ := foldl_linewise fun s hs => sipRewriteHeader_linewise hs haFrom haTo x.portless
  exact ⟨g' ∘ g, hg.comp hg', fun t => by rw [Exchange.headerPasses, hhosts, haddrs, linewise_comp hg]⟩

end PktKit.Nat44.Sip
