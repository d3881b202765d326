import PktKit.Nat44.Sip

/-! # What SIP rewriting does to a message's frame

The passes over the header lines run over the body's lines too. What they do to a head leaves it the head of a
message of the same length; a body that changes is another matter.
-/

namespace PktKit.Nat44.Sip
open Foundations

variable (x : Exchange)

/-! ## Header fields after the passes -/

def Unaddressed (names : List Bytes) : Prop := ∀ w, AddressName w → ¬names.any (eqIgnoreCase w)

theorem unaddressed_of {names : List Bytes} (h : ∀ n ∈ names, ¬AddressName n) : Unaddressed names := by
  intro w hw hany
  obtain ⟨n, hn, he⟩ := List.any_eq_true.1 hany
  refine h n hn ?_
  rw [AddressName, ← beq_iff_eq.1 he]
  exact hw

theorem unaddressed_contentLength : Unaddressed CONTENT_LENGTH := unaddressed_of (by unfold AddressName; decide)

theorem unaddressed_contentType : Unaddressed CONTENT_TYPE := unaddressed_of (by unfold AddressName; decide)

theorem trim_eq_self {w : Bytes} (h : ∀ b ∈ w, ¬isSpace b) : trim w = w := by
  have hstart : trimStart w = w := by
    cases w with
    | nil => rfl
    | cons b w => exact List.dropWhile_cons_of_neg (h b List.mem_cons_self)
  rw [trim, hstart, List.rdropWhile_eq_self_iff]
  exact fun hne => h _ (List.getLast_mem hne)

variable {names : List Bytes} {g : Bytes → Bytes}

theorem takeWhile_colon {name : Bytes} (h : 58 ∉ name) (t : Bytes) :
    (name ++ 58 :: t).takeWhile (· ≠ 58) = name := by
  have hall : ∀ b ∈ name, decide (b ≠ 58) := fun b hb => decide_eq_true fun he => h (he ▸ hb)
  rw [List.takeWhile_append_of_pos hall]
  simp

theorem valueIn_addressed (hnames : Unaddressed names) {line : Bytes} (h : Addressed line) :
    valueIn names line = none := by
  obtain ⟨w, t, rfl, hw⟩ := h
  have hname := takeWhile_colon (fun h => (hw.letters 58 h).2.1 rfl) t
  rw [valueIn, if_pos (by simp)]
  simp only [hname, trim_eq_self fun b hb => (hw.letters b hb).2.2, hnames w hw]
  simp

theorem valueIn_tame (hnames : Unaddressed names) (hg : Tame g) (line : Bytes) :
    valueIn names (g line) = valueIn names line := by
  rcases hg.same line with h | ⟨hl, hgl⟩
  · rw [h]
  · rw [valueIn_addressed hnames hl, valueIn_addressed hnames hgl]

theorem headerIn_tame (hnames : Unaddressed names) (hg : Tame g) (ls : List Bytes) :
    (headerIn names (ls.map g)).map (fun r => r.2.1) = (headerIn names ls).map fun r => r.2.1 := by
  induction ls with
  | nil => rfl
  | cons line ls ih =>
    rw [List.map_cons, headerIn, headerIn, valueIn_tame hnames hg]
    cases valueIn names line with
    | none => simpa [Function.comp_def] using ih
    | some r => rfl

theorem headerValue_tame (hnames : Unaddressed names) (hg : Tame g) (h : Bytes) :
    (headerValue (linewise g h) names).map (fun r => r.2.1) = (headerValue h names).map fun r => r.2.1 := by
  obtain ⟨first, ls, he⟩ := lines_cons (c := CR) (d := LF) h
  rw [headerValue, headerValue, lines_linewise hg, he]
  simpa [Function.comp_def] using headerIn_tame hnames hg ls

theorem contentLength_eq (h : Bytes) :
    contentLength h = ((headerValue h CONTENT_LENGTH).map fun r => r.2.1).bind parse := by
  rw [contentLength]
  cases headerValue h CONTENT_LENGTH <;> rfl

theorem contentLength_tame (hg : Tame g) (h : Bytes) : contentLength (linewise g h) = contentLength h := by
  rw [contentLength_eq, contentLength_eq, headerValue_tame unaddressed_contentLength hg]

theorem isSdp_tame (hg : Tame g) (h : Bytes) : isSdp (linewise g h) = isSdp h := by
  have hv := headerValue_tame unaddressed_contentType hg h
  rw [isSdp, isSdp]
  cases h1 : headerValue (linewise g h) CONTENT_TYPE with
  | none =>
    cases h2 : headerValue h CONTENT_TYPE with
    | none => rfl
    | some r => simp [h1, h2] at hv
  | some r =>
    cases h2 : headerValue h CONTENT_TYPE with
    | none => simp [h1, h2] at hv
    | some r' =>
      simp only [h1, h2, Option.map_some, Option.some.injEq] at hv
      simp only [Option.any_some, hv]

/-! ## The Content-Length set anew -/

theorem isSpace_of_mem_takeWhile {l : Bytes} {b : UInt8} (h : b ∈ l.takeWhile isSpace) : isSpace b :=
  List.mem_takeWhile_imp h

/-- What trimming takes off the end is whitespace. -/
theorem rdropWhile_isSpace (l : Bytes) : ∃ t, l = l.rdropWhile isSpace ++ t ∧ ∀ b ∈ t, isSpace b := by
  induction l using List.reverseRecOn with
  | nil => exact ⟨[], rfl, by simp⟩
  | append_singleton l b ih =>
    rw [List.rdropWhile_concat]
    split
    · rename_i hb
      obtain ⟨t, ht, hspace⟩ := ih
      refine ⟨t ++ [b], by rw [← List.append_assoc, ← ht], fun b' hb' => ?_⟩
      rcases List.mem_append.1 hb' with hb' | hb'
      · exact hspace b' hb'
      · rw [List.mem_singleton.1 hb']
        exact hb
    · exact ⟨[], by simp, by simp⟩

theorem rdropWhile_append {l t : Bytes} (h : ∀ b ∈ t, isSpace b) :
    (l ++ t).rdropWhile isSpace = l.rdropWhile isSpace := by
  induction t using List.reverseRecOn with
  | nil => rw [List.append_nil]
  | append_singleton t b ih =>
    rw [← List.append_assoc, List.rdropWhile_concat, if_pos (h b (by simp)),
      ih fun b' hb' => h b' (List.mem_append_left _ hb')]

/-- The line of a header that is asked for, with its value between whitespace. -/
structure Field (names : List Bytes) (a z : Bytes) : Prop where
  named : ∃ name lead, a = name ++ 58 :: lead ∧ 58 ∉ name ∧ names.any (eqIgnoreCase (trim name)) ∧
    ∀ b ∈ lead, isSpace b
  spaces : ∀ b ∈ z, isSpace b

theorem valueIn_append {name : Bytes} (h : 58 ∉ name) (value : Bytes) :
    valueIn names (name ++ 58 :: value) = if names.any (eqIgnoreCase (trim name)) then
      some (name ++ 58 :: value.takeWhile isSpace, trim value, (trimStart value).drop (trim value).length)
        else none := by
  have hlead : value.length - (trimStart value).length = (value.takeWhile isSpace).length := by
    have hlen := congrArg List.length (List.takeWhile_append_dropWhile (p := isSpace) (l := value))
    rw [List.length_append] at hlen
    rw [trimStart]
    omega
  have hcut : value = value.takeWhile isSpace ++ trimStart value := List.takeWhile_append_dropWhile.symm
  have hvalue : (name ++ 58 :: value).drop (name.length + 1) = value := by
    rw [← List.singleton_append, ← List.append_assoc]
    exact List.drop_left' (by simp)
  rw [valueIn, if_pos (by simp)]
  simp only [takeWhile_colon h, hvalue, hlead]
  have hline : name ++ 58 :: value = (name ++ 58 :: value.takeWhile isSpace) ++ trimStart value := by
    conv_lhs => rw [hcut]
    simp
  have hlen : name.length + 1 + (value.takeWhile isSpace).length =
    (name ++ 58 :: value.takeWhile isSpace).length := by
    simp only [List.length_append, List.length_cons]
    omega
  rw [hline, hlen, List.take_left, List.drop_length_add_append]

theorem field_of_valueIn {line a v z : Bytes} (h : valueIn names line = some (a, v, z)) :
    Field names a z ∧ line = a ++ v ++ z := by
  have hcolon : 58 ∈ line := by
    by_contra hn
    simp [valueIn, hn] at h
  obtain ⟨name, value, rfl, hname⟩ := List.eq_append_cons_of_mem hcolon
  rw [valueIn_append hname] at h
  split at h
  · rename_i hany
    simp only [Option.some.injEq, Prod.mk.injEq] at h
    obtain ⟨rfl, rfl, rfl⟩ := h
    obtain ⟨t, ht, hspace⟩ := rdropWhile_isSpace (trimStart value)
    have hz : (trimStart value).drop (trim value).length = t := by
      conv_lhs => rw [ht]
      exact List.drop_left
    refine ⟨⟨⟨name, _, rfl, hname, hany, fun b hb => isSpace_of_mem_takeWhile hb⟩, hz ▸ hspace⟩, ?_⟩
    have hcut : value = value.takeWhile isSpace ++ (trim value ++ t) :=
      (List.takeWhile_append_dropWhile.symm).trans (by rw [trim, ← ht, trimStart])
    rw [hz]
    conv_lhs => rw [hcut]
    simp
  · simp at h

theorem valueIn_field {a v z : Bytes} (h : Field names a z) (hv : v ≠ []) (hspace : ∀ b ∈ v, ¬isSpace b) :
    valueIn names (a ++ v ++ z) = some (a, v, z) := by
  obtain ⟨⟨name, lead, rfl, hname, hany, hlead⟩, hz⟩ := h
  obtain ⟨b, v', rfl⟩ := List.exists_cons_of_ne_nil hv
  have hb : ¬isSpace b := hspace b List.mem_cons_self
  have hstart : trimStart (lead ++ (b :: v' ++ z)) = b :: v' ++ z := by
    rw [trimStart, List.dropWhile_append_of_pos hlead]
    exact List.dropWhile_cons_of_neg hb
  have htrim : trim (lead ++ (b :: v' ++ z)) = b :: v' := by
    rw [trim, hstart, rdropWhile_append hz, List.rdropWhile_eq_self_iff]
    exact fun hne => hspace _ (List.getLast_mem hne)
  have htake : (lead ++ (b :: v' ++ z)).takeWhile isSpace = lead := by
    rw [List.takeWhile_append_of_pos hlead, List.cons_append, List.takeWhile_cons_of_neg hb, List.append_nil]
  have hline : name ++ 58 :: lead ++ b :: v' ++ z = name ++ 58 :: (lead ++ (b :: v' ++ z)) := by simp
  rw [hline, valueIn_append hname, if_pos hany, htake, htrim, hstart, List.drop_left]

/-- The lines around a header's value hold any other number just as well. -/
theorem headerIn_set {ls : List Bytes} {a v z : Bytes} (h : headerIn names ls = some (a, v, z))
    (hls : ∀ l ∈ ls, Unbroken CR LF l ∧ l ≠ []) (n : ℕ) :
    ∃ ls', ls' ≠ [] ∧ (∀ l ∈ ls', Unbroken CR LF l ∧ l ≠ []) ∧ unlines CR LF ls' = a ++ decimal n ++ z ∧
      headerIn names ls' = some (a, decimal n, z) := by
  induction ls generalizing a with
  | nil => simp [headerIn] at h
  | cons line ls ih =>
    have hline := hls line List.mem_cons_self
    have hrest : ∀ l ∈ ls, Unbroken CR LF l ∧ l ≠ [] := fun l hl => hls l (List.mem_cons_of_mem _ hl)
    rw [headerIn] at h
    cases hv : valueIn names line with
    | some r =>
      obtain ⟨a', v', z'⟩ := r
      simp only [hv, Option.some.injEq, Prod.mk.injEq] at h
      obtain ⟨rfl, rfl, rfl⟩ := h
      obtain ⟨hfield, rfl⟩ := field_of_valueIn hv
      have hdigit : ∀ b ∈ decimal n, ¬isSpace b ∧ b ≠ CR ∧ b ≠ LF := fun b hb =>
        ⟨(plain_decimal hb).not_isSpace, (plain_decimal hb).ne.1, (plain_decimal hb).ne.2.1⟩
      refine ⟨(a' ++ decimal n ++ z') :: ls, by simp, ?_, ?_, ?_⟩
      · intro l hl
        rcases List.mem_cons.1 hl with rfl | hl
        · refine ⟨?_, by simp [decimal_ne_nil]⟩
          have ha : Unbroken CR LF a' := (hline.1.left_of_append).left_of_append
          exact ha.join hline.1.right_of_append (decimal_ne_nil n) (fun hc => (hdigit _ hc).2.1 rfl)
            fun hd => (hdigit _ hd).2.2 rfl
        · exact hrest l hl
      · cases ls with
        | nil => simp [unlines]
        | cons l ls => simp [unlines]
      · rw [headerIn, valueIn_field hfield (decimal_ne_nil n) fun b hb => (hdigit b hb).1]
    | none =>
      rw [hv] at h
      obtain ⟨⟨a', r⟩, hr, he⟩ := Option.map_eq_some_iff.1 h
      simp only [Prod.mk.injEq] at he
      obtain ⟨rfl, rfl⟩ := he
      obtain ⟨ls', hne, hls', htext, hhead⟩ := ih hr hrest
      refine ⟨line :: ls', by simp, ?_, ?_, ?_⟩
      · intro l hl
        rcases List.mem_cons.1 hl with rfl | hl
        · exact hline
        · exact hls' l hl
      · rw [unlines_cons hne, htext]
        simp
      · rw [headerIn, hv, hhead]
        rfl

/-! ## Complete messages -/

def message (h b : Bytes) : Bytes := h ++ CR :: LF :: CR :: LF :: b

/-- A head that starts a message and has no blank line in it. -/
structure Head (h : Bytes) : Prop where
  solid : Solid CR LF h
  start : startsMessage ((lines CR LF h).headD [])

theorem lines_message (h b : Bytes) : lines CR LF (message h b) = lines CR LF h ++ [] :: lines CR LF b := by
  rw [message, lines_append CR_ne_LF]
  exact congrArg _ (lines_append CR_ne_LF [] b)

theorem headD_lines_message (h b : Bytes) :
    (lines CR LF (message h b)).headD [] = (lines CR LF h).headD [] := by
  obtain ⟨a, as, he⟩ := lines_cons (c := CR) (d := LF) h
  rw [lines_message, he]
  rfl

theorem Head.findIn {h : Bytes} (hh : Head h) (b : Bytes) : findIn BLANK (message h b) = some h.length :=
  (findIn_blank CR_ne_LF h b).2 hh.solid

theorem length_message (h b : Bytes) : (message h b).length = h.length + 4 + b.length := by
  simp only [message, List.length_append, List.length_cons]
  omega

theorem take_message (h b : Bytes) : (message h b).take h.length = h := List.take_left

theorem drop_message (h b : Bytes) : (message h b).drop (h.length + 4) = b := by
  have he : message h b = (h ++ [CR, LF, CR, LF]) ++ b := by simp [message]
  rw [he]
  exact List.drop_left' (by simp)

theorem message_append (h b t : Bytes) : message h b ++ t = message h (b ++ t) := by simp [message]

theorem messageEnd_message {h b : Bytes} (hh : Head h) (hl : contentLength h = some b.length) (t : Bytes) :
    messageEnd (message h b ++ t) = some (message h b).length := by
  rw [message_append, messageEnd, headD_lines_message, if_pos hh.start, hh.findIn, Option.bind_some,
    take_message, hl,
    Option.bind_some, if_pos, length_message]
  rw [length_message, List.length_append]
  omega

theorem message_of_messageEnd {msg : Bytes} {n : ℕ} (h : messageEnd msg = some n) :
    ∃ hd b, msg.take n = message hd b ∧ Head hd ∧ contentLength hd = some b.length := by
  rw [messageEnd] at h
  split at h
  · rename_i hstart
    obtain ⟨k, hk, h⟩ := Option.bind_eq_some_iff.1 h
    obtain ⟨len, hlen, h⟩ := Option.bind_eq_some_iff.1 h
    obtain ⟨hd, t, rfl, rfl⟩ := findIn_eq_some hk
    have he : hd ++ BLANK ++ t = message hd t := by simp [BLANK, message]
    rw [he] at h hk hlen hstart ⊢
    rw [take_message] at hlen
    rw [headD_lines_message] at hstart
    split at h
    · rename_i hle
      obtain rfl := Option.some.inj h
      rw [length_message] at hle
      have htake : (t.take len).length = len := List.length_take_of_le (by omega)
      refine ⟨hd, t.take len, ?_, ⟨(findIn_blank CR_ne_LF hd t).1 hk, hstart⟩, by rw [htake]; exact hlen⟩
      conv_lhs => rw [← List.take_append_drop len t, ← message_append]
      exact List.take_left' (by rw [length_message, htake])
    · simp at h
  · simp at h

def headOf (msg : Bytes) : Bytes := msg.take ((findIn BLANK msg).getD msg.length)
def bodyOf (msg : Bytes) : Bytes := msg.drop ((findIn BLANK msg).getD msg.length + 4)

theorem Head.headOf {h : Bytes} (hh : Head h) (b : Bytes) : headOf (message h b) = h := by
  rw [Sip.headOf, hh.findIn, Option.getD_some, take_message]

theorem Head.bodyOf {h : Bytes} (hh : Head h) (b : Bytes) : bodyOf (message h b) = b := by
  rw [Sip.bodyOf, hh.findIn, Option.getD_some, drop_message]

/-! ## A rewritten message -/

theorem Tame.ne_nil (hg : Tame g) {l : Bytes} (h : l ≠ []) : g l ≠ [] := by
  rcases hg.same l with he | ⟨-, w, t, he, -⟩
  · rwa [he]
  · simp [he]

theorem Tame.nil (hg : Tame g) : g [] = [] := by
  rcases hg.same [] with he | ⟨⟨w, t, he, -⟩, -⟩
  · exact he
  · simp at he

theorem Tame.startsMessage (hg : Tame g) {l : Bytes} (h : startsMessage l) : startsMessage (g l) := by
  rcases hg.same l with he | ⟨⟨w, t, rfl, hw⟩, -⟩
  · rwa [he]
  · -- A line that starts with an address header's name can only be a request line.
    rw [Sip.startsMessage, Bool.or_eq_true, List.isPrefixOf_iff_prefix, List.isSuffixOf_iff_suffix] at h ⊢
    rcases h with ⟨r, hr⟩ | h
    · exfalso
      cases w with
      | nil => simp [AddressName, ascii] at hw
      | cons b w =>
        obtain rfl : 83 = b := (List.cons.inj hr).1
        simp [AddressName, ascii, lower] at hw
    · exact .inr (hg.version _ h)

theorem Head.linewise (hg : Tame g) {h : Bytes} (hh : Head h) : Head (linewise g h) := by
  obtain ⟨first, ls, he⟩ := lines_cons (c := CR) (d := LF) h
  have hlines : lines CR LF (Sip.linewise g h) = g first :: ls.map g := by
    rw [lines_linewise hg, he, List.map_cons]
  refine ⟨?_, ?_⟩
  · have hsolid := hh.solid
    rw [Solid, he, List.tail_cons] at hsolid
    rw [Solid, hlines, List.tail_cons]
    intro hmem
    obtain ⟨l, hl, hnil⟩ := List.mem_map.1 hmem
    exact hg.ne_nil (fun h0 => hsolid (h0 ▸ hl)) hnil
  · have hstart := hh.start
    rw [he] at hstart
    rw [hlines]
    exact hg.startsMessage hstart

theorem headerIn_blank (ls : List Bytes) :
    headerIn names (ls ++ [[], []]) =
      (headerIn names ls).map fun r => (r.1, r.2.1, r.2.2 ++ [CR, LF, CR, LF]) := by
  have hempty : valueIn names [] = none := by simp [valueIn]
  induction ls with
  | nil => simp [headerIn, hempty]
  | cons line ls ih =>
    rw [List.cons_append, headerIn, headerIn]
    cases valueIn names line with
    | some r => 
      simp only [Option.map_some, ← List.cons_append]
      rw [unlines_append (by simp) (by simp)]
      rfl
    | none =>
      simp only [ih, Option.map_map]
      rfl

theorem headerValue_blank (h : Bytes) : headerValue (h ++ [CR, LF, CR, LF]) names =
    (headerValue h names).map fun r => (r.1, r.2.1, r.2.2 ++ [CR, LF, CR, LF]) := by
  obtain ⟨first, ls, he⟩ := lines_cons (c := CR) (d := LF) h
  have hlines : lines CR LF (h ++ [CR, LF, CR, LF]) = first :: (ls ++ [[], []]) := by
    have hm := lines_message h []
    rw [he] at hm
    exact hm
  rw [headerValue, hlines, headerValue, he]
  simp only [headerIn_blank, Option.map_map]
  rfl

/-- The new body's length stands in the head that is put before it. -/
theorem sipUpdateContentLength_message {h : Bytes} (hh : Head h) {k : ℕ} (hk : contentLength h = some k)
    (body : Bytes) : ∃ h', sipUpdateContentLength (h ++ [CR, LF, CR, LF]) body = message h' body ∧ Head h' ∧
      contentLength h' = some body.length := by
  obtain ⟨first, ls, he⟩ := lines_cons (c := CR) (d := LF) h
  obtain ⟨⟨a, v, z⟩, hv, -⟩ := Option.bind_eq_some_iff.1 hk
  have hin := hv
  rw [headerValue, he] at hin
  obtain ⟨⟨a', r⟩, hin, hr⟩ := Option.map_eq_some_iff.1 hin
  simp only [Prod.mk.injEq] at hr
  obtain ⟨rfl, rfl⟩ := hr
  have hsolid := hh.solid
  rw [Solid, he, List.tail_cons] at hsolid
  have hls : ∀ l ∈ ls, Unbroken CR LF l ∧ l ≠ [] := fun l hl =>
    ⟨unbroken_of_mem (he ▸ List.mem_cons_of_mem _ hl), fun h0 => hsolid (h0 ▸ hl)⟩
  have hfirst : Unbroken CR LF first := unbroken_of_mem (he ▸ List.mem_cons_self)
  obtain ⟨ls', hne, hls', htext, hhead⟩ := headerIn_set hin hls body.length
  have htext' : unlines CR LF (first :: ls') = first ++ CR :: LF :: a' ++ decimal body.length ++ z := by
    rw [unlines_cons hne, htext]
    simp
  have hlines : lines CR LF (first ++ CR :: LF :: a' ++ decimal body.length ++ z) = first :: ls' := by
    rw [← htext']
    refine lines_unlines CR_ne_LF (by simp) fun l hl => ?_
    rcases List.mem_cons.1 hl with rfl | hl
    · exact hfirst
    · exact (hls' l hl).1
  refine ⟨first ++ CR :: LF :: a' ++ decimal body.length ++ z, ?_, ⟨?_, ?_⟩, ?_⟩
  · rw [sipUpdateContentLength, headerValue_blank, hv]
    simp [message]
  · rw [Solid, hlines, List.tail_cons]
    exact fun hmem => (hls' [] hmem).2 rfl
  · have hstart := hh.start
    rw [he] at hstart
    rw [hlines]
    exact hstart
  · rw [contentLength, headerValue, hlines]
    simp only [hhead, Option.map_some, Option.bind_some, parse_decimal]

/-- A rewritten message: the passes over its head and its body, unless the SDP changes. -/
theorem rewriteMessage_message (hg : Tame g) (hp : ∀ t, x.headerPasses t = linewise g t)
    {h b : Bytes} (hh : Head h)
    (hl : contentLength h = some b.length) (n : ℕ) :
    (¬(isSdp h ∧ x.newSdp n (linewise g b) ≠ linewise g b) ∧
        x.rewriteMessage n (message h b) = message (linewise g h) (linewise g b)) ∨
      (isSdp h ∧ x.newSdp n (linewise g b) ≠ linewise g b) ∧ ∃ h', Head h' ∧
        contentLength h' = some (x.newSdp n (linewise g b)).length ∧
          x.rewriteMessage n (message h b) = message h' (x.newSdp n (linewise g b)) := by
  have hpass : x.headerPasses (message h b) = message (linewise g h) (linewise g b) := by
    have hblank : linewise g (CR :: LF :: b) = CR :: LF :: linewise g b := by
      have he := linewise_append (g := g) [] b
      rwa [show linewise g [] = [] from hg.nil] at he
    rw [hp, message, linewise_append, hblank, message]
  have hhead := hh.linewise hg
  rw [Exchange.rewriteMessage, hpass, hhead.findIn]
  simp only [take_message, drop_message, isSdp_tame hg]
  split
  · rename_i hc
    refine .inr ⟨hc, ?_⟩
    have htake : (message (linewise g h) (linewise g b)).take ((linewise g h).length + 4) =
        linewise g h ++ [CR, LF, CR, LF] := by
      have he : message (linewise g h) (linewise g b) =
          (linewise g h ++ [CR, LF, CR, LF]) ++ linewise g b := by simp [message]
      rw [he]
      exact List.take_left' (by simp)
    rw [htake]
    obtain ⟨h', he, hh', hl'⟩ := sipUpdateContentLength_message hhead ((contentLength_tame hg h).trans hl)
      (x.newSdp n (linewise g b))
    exact ⟨h', hh', hl', he⟩
  · rename_i hc
    exact .inl ⟨hc, rfl⟩

/-- The passes leave the message in its frame: a body that is no SDP is not changed, and the length of one that
is stays unless its Content-Length is then set anew. -/
def Exchange.Kept (n : ℕ) (msg : Bytes) : Prop :=
  if isSdp (headOf msg) then
    (x.headerPasses (bodyOf msg)).length = (bodyOf msg).length ∨
      x.newSdp n (x.headerPasses (bodyOf msg)) ≠ x.headerPasses (bodyOf msg)
  else x.headerPasses (bodyOf msg) = bodyOf msg

def Complete (msg : Bytes) : Prop := ∃ h b, msg = message h b ∧ Head h ∧ contentLength h = some b.length

theorem Complete.contentLength {msg : Bytes} (h : Complete msg) :
    contentLength (headOf msg) = some (bodyOf msg).length := by
  obtain ⟨h, b, rfl, hh, hl⟩ := h
  rw [hh.headOf, hh.bodyOf, hl]

theorem kept_iff {msg : Bytes} (h : Complete msg) (n : ℕ) :
    x.Kept n msg ↔ Complete (x.rewriteMessage n msg) ∧
      (isSdp (headOf msg) = false → bodyOf (x.rewriteMessage n msg) = bodyOf msg) := by
  obtain ⟨g, hg, hp⟩ := headerPasses_linewise x
  obtain ⟨h, b, rfl, hh, hl⟩ := h
  have hhead := hh.linewise hg
  have hlen := (contentLength_tame hg h).trans hl
  rw [Exchange.Kept, hh.headOf, hh.bodyOf, hp]
  rcases rewriteMessage_message x hg hp hh hl n with ⟨hc, he⟩ | ⟨hc, h', hh', hl', he⟩
  · have hcomplete : Complete (message (linewise g h) (linewise g b)) ↔ (linewise g b).length = b.length := by
      constructor
      · intro hm
        have := hm.contentLength
        rw [hhead.headOf, hhead.bodyOf, hlen] at this
        exact (Option.some.inj this).symm
      · intro hb
        exact ⟨_, _, rfl, hhead, by rw [hlen, hb]⟩
    rw [he, hhead.bodyOf, hcomplete]
    by_cases hsdp : isSdp h
    · have hsame : x.newSdp n (linewise g b) = linewise g b := by
        by_contra hne
        exact hc ⟨hsdp, hne⟩
      simp [hsdp, hsame]
    · simp only [hsdp, if_false, Bool.false_eq_true]
      constructor
      · intro hb
        exact ⟨by rw [hb], fun _ => hb⟩
      · intro hb
        exact hb.2 trivial
  · rw [he, if_pos hc.1]
    exact ⟨fun _ => ⟨⟨_, _, rfl, hh', hl'⟩, fun hno => by simp [hc.1] at hno⟩, fun _ => .inr hc.2⟩

/-! ## The messages of a segment -/

theorem keepAlives_append {gap : Bytes} (h : keepAlives gap = gap.length) (t : Bytes) :
    keepAlives (gap ++ t) = gap.length + keepAlives t := by
  induction gap using keepAlives.induct with
  | case1 x y gap hxy ih =>
    rw [keepAlives, if_pos hxy, List.length_cons, List.length_cons] at h
    rw [List.cons_append, List.cons_append, keepAlives, if_pos hxy, ih (by omega), List.length_cons,
      List.length_cons]
    omega
  | case2 x y gap hxy =>
    rw [keepAlives, if_neg hxy] at h
    simp at h
  | case3 gap hgap =>
    match gap with
    | [] => simp
    | [a] => simp [keepAlives] at h
    | a :: b :: gap => exact (hgap a b gap rfl).elim

theorem keepAlives_take (l : Bytes) :
    keepAlives (l.take (keepAlives l)) = (l.take (keepAlives l)).length ∧ (l.take (keepAlives l)).length =
      keepAlives l := by
  induction l using keepAlives.induct with
  | case1 x y l hxy ih =>
    rw [keepAlives, if_pos hxy, List.take_succ_cons, List.take_succ_cons, keepAlives, if_pos hxy, List.length_cons,
      List.length_cons, ih.1]
    exact ⟨rfl, by rw [ih.2]⟩
  | case2 x y l hxy => simp [keepAlives, hxy]
  | case3 l hl =>
    rw [keepAlives.eq_2 l hl]
    simp [keepAlives]

theorem keepAlives_eq_zero {l : Bytes} (h : (lines CR LF l).headD [] ≠ []) : keepAlives l = 0 := by
  match l with
  | [] => rfl
  | [a] => rfl
  | a :: b :: l =>
    rw [keepAlives, if_neg]
    intro hab
    simp [lines, hab] at h

theorem keepAlives_complete {msg : Bytes} (h : Complete msg) (t : Bytes) : keepAlives (msg ++ t) = 0 := by
  obtain ⟨h, b, rfl, hh, -⟩ := h
  apply keepAlives_eq_zero
  rw [message_append, headD_lines_message]
  intro hnil
  have hstart := hh.start
  rw [hnil] at hstart
  exact absurd hstart (by decide)

theorem messageEnd_complete {msg : Bytes} (h : Complete msg) (t : Bytes) :
    messageEnd (msg ++ t) = some msg.length := by
  obtain ⟨h, b, rfl, hh, hl⟩ := h
  exact messageEnd_message hh hl t

theorem joined_cons (p : Bytes × Bytes) (ms : List (Bytes × Bytes)) (rest : Bytes) :
    joined (p :: ms, rest) = p.1 ++ (p.2 ++ joined (ms, rest)) := by
  simp [joined]

theorem sipMessages_spec (payload : Bytes) :
    (∀ p ∈ (sipMessages payload).1, keepAlives p.1 = p.1.length ∧ Complete p.2) ∧
      messageEnd ((sipMessages payload).2.drop (keepAlives (sipMessages payload).2)) = none := by
  fun_induction sipMessages payload with
  | case1 payload msg h => exact ⟨by simp, h⟩
  | case2 payload msg n h r ih =>
    refine ⟨fun p hp => ?_, ih.2⟩
    rcases List.mem_cons.1 hp with rfl | hp
    · exact ⟨(keepAlives_take payload).1, message_of_messageEnd h⟩
    · exact ih.1 p hp

theorem sipMessages_joined {ms : List (Bytes × Bytes)} {rest : Bytes}
    (hms : ∀ p ∈ ms, keepAlives p.1 = p.1.length ∧ Complete p.2)
    (hrest : messageEnd (rest.drop (keepAlives rest)) = none) : sipMessages (joined (ms, rest)) = (ms, rest) := by
  induction ms with
  | nil =>
    rw [show joined ([], rest) = rest from rfl, sipMessages]
    split
    · rfl
    · rename_i n hn
      rw [hrest] at hn
      simp at hn
  | cons p ms ih =>
    obtain ⟨hgap, hmsg⟩ := hms p List.mem_cons_self
    have hskip : keepAlives (joined (p :: ms, rest)) = p.1.length := by
      rw [joined_cons, keepAlives_append hgap, keepAlives_complete hmsg]
      omega
    have hdrop : (joined (p :: ms, rest)).drop p.1.length = p.2 ++ joined (ms, rest) := by
      rw [joined_cons]
      exact List.drop_left
    have htake : (joined (p :: ms, rest)).take p.1.length = p.1 := by
      rw [joined_cons]
      exact List.take_left
    rw [sipMessages]
    simp only [hskip, hdrop, htake]
    split
    · rename_i hn
      rw [hskip, hdrop, messageEnd_complete hmsg] at hn
      simp at hn
    · rename_i n hn
      rw [hskip, hdrop, messageEnd_complete hmsg] at hn
      obtain rfl := Option.some.inj hn
      rw [List.take_left, List.drop_left, ih fun p hp => hms p (List.mem_cons_of_mem _ hp)]

variable {x}

theorem getElem?_rewriteMessages (ms : List (Bytes × Bytes)) (n k : ℕ) :
    (x.rewriteMessages k ms)[n]? = ms[n]?.map fun p => (p.1, x.rewriteMessage (k + n) p.2) := by
  induction ms generalizing n k with
  | nil => simp [Exchange.rewriteMessages]
  | cons p ms ih =>
    rw [Exchange.rewriteMessages]
    cases n with
    | zero => rfl
    | succ n =>
      rw [List.getElem?_cons_succ, List.getElem?_cons_succ, ih, Nat.add_right_comm, ← Nat.add_assoc]

variable (x) in
/-- The payload the helper makes keeps the frame of the one it was given: the messages found in it are the
rewritten ones in their order, between the same bytes, each as long as it says, and bodies that are no SDP are as
they were. -/
def Exchange.Framed (payload : Bytes) : Prop :=
  sipMessages (x.newPayload payload) = (x.rewriteMessages 0 (sipMessages payload).1, (sipMessages payload).2) ∧
    (∀ p ∈ (sipMessages (x.newPayload payload)).1, contentLength (headOf p.2) = some (bodyOf p.2).length) ∧
      ∀ (n : ℕ) (gap msg : Bytes), (sipMessages payload).1[n]? = some (gap, msg) → isSdp (headOf msg) = false →
        bodyOf (x.rewriteMessage n msg) = bodyOf msg

def sample : Exchange := ⟨0x01010101, 5060, 0x0a010101, 5060, true, fun _ sdp => sdp⟩

/-- A request whose body, no SDP, is the one line `m:1.1.1.1`. -/
def request : Bytes := message (ascii ['M', ' ', 'S', 'I', 'P', '/', '2', '.', '0', '\r', '\n', 'l', ':', '9'])
  (ascii ['m', ':', '1', '.', '1', '.', '1', '.', '1'])

end PktKit.Nat44.Sip
