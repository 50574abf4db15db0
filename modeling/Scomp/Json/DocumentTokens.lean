/-
The tokens of a document: one for each lexeme it is spelled by, and so no
document is spelled in two ways.

A text of Unicode characters makes a document of one string, in which each
character is a token of its own.
-/
import Scomp.Json.DocumentGrammar

namespace Scomp

/-! ## One token for each lexeme -/

theorem jsonTokenizerParseAll_lexemes {fuel : Nat} {stack : List JsonState} {r : Reader} {kinds : List JsonTokenKind}
    {texts : List (List Byte)} (h : StackSafe stack JSON_MAX_STATE_STACK_LENGTH) (hat : r.AtByte)
    (hsteps : jsmSteps stack kinds = some [.root]) (hnesting : NestingFits (stackNesting stack) kinds)
    (hlexemes : List.Forall₂ Lexeme kinds texts) (hbytes : r.unreadBytes = texts.flatten)
    (hfuel : r.unreadBytes.length < fuel) :
    ∃ tokens t, jsonTokenizerParseAll fuel ⟨jsmOf stack JSON_MAX_STATE_STACK_LENGTH, r⟩ = some (tokens, t) ∧
      tokens.map JsonToken.kind = kinds ∧ tokens.map printToken = texts ∧ jsonTokenizerIsDone t = some true := by
  induction hlexemes generalizing fuel stack r with
  | nil =>
    obtain ⟨fuel, rfl⟩ : ∃ m, fuel = m + 1 := Nat.exists_eq_succ_of_ne_zero (by omega)
    obtain rfl : stack = [.root] := Option.some.inj hsteps
    refine ⟨[], ⟨jsmOf [.root] JSON_MAX_STATE_STACK_LENGTH, r⟩, ?_, rfl, rfl, rfl⟩
    simp only [jsonTokenizerParseAll, hat.bytesAvailable, hbytes, Option.bind_eq_bind, Option.bind_some]
    rfl
  | @cons kind text kinds texts hlexeme hlexemes ih =>
    obtain ⟨fuel, rfl⟩ : ∃ m, fuel = m + 1 := Nat.exists_eq_succ_of_ne_zero (by omega)
    obtain ⟨stack', hs, hrest⟩ := Option.bind_eq_some_iff.mp hsteps
    obtain ⟨hflat, hnesting⟩ := hnesting
    have hends : kind = .number → EndsNumber texts.flatten := by
      rintro rfl
      cases hlexemes with
      | nil => simp [EndsNumber]
      | @cons kind₁ text₁ kinds texts hnext _ =>
        obtain ⟨stack₁, hs₁, -⟩ := Option.bind_eq_some_iff.mp hrest
        exact hnext.endsNumber (jsmStep_afterNumber h.ok hs hs₁) _
    obtain ⟨token, rfl, hsafe, hstep⟩ := lexStep_lexeme h hs hflat hlexeme hends
    rw [List.flatten_cons] at hbytes
    have hne : r.unreadBytes ≠ [] := by
      rw [hbytes]
      exact List.append_ne_nil_of_left_ne_nil hlexeme.ne_nil _
    have hpos := List.length_pos_iff.mpr hne
    have hreprints := (lexStep_valid hstep).1
    have hlexes := @jsonTokenizerParseNext_lexes ⟨jsmOf stack JSON_MAX_STATE_STACK_LENGTH, r⟩ ⟨stack, rfl, h⟩ hat hne
    dsimp only at hlexes
    rw [hbytes, hstep] at hlexes
    obtain ⟨-, r', hparse, hahead⟩ := hlexes
    have hunread : r'.unreadBytes = texts.flatten := by rw [hahead.unread, hbytes, List.drop_left]
    have hshorter : r'.unreadBytes.length < fuel := by
      have hlength := congrArg List.length hbytes
      have htext := List.length_pos_iff.mpr hlexeme.ne_nil
      rw [List.length_append, ← hunread] at hlength
      omega
    rw [← jsmStep_nesting hs] at hnesting
    obtain ⟨tokens, t, hall, hkinds, htexts, hdone⟩ := ih hsafe hahead.atByte hrest hnesting hunread hshorter
    refine ⟨token :: tokens, t, ?_, by rw [List.map_cons, hkinds], ?_, hdone⟩
    · simp only [jsonTokenizerParseAll, hat.bytesAvailable, Option.bind_eq_bind, Option.bind_some]
      rw [if_pos (by omega)]
      simp only [hparse, Option.bind_some, if_neg hreprints.valid, hall]
      rfl
    · rw [List.map_cons, htexts, hreprints.printed, List.take_left]

theorem isJsonText_iff_steps (kinds : List JsonTokenKind) :
    IsJsonText kinds ↔ jsmSteps [.start, .root] kinds = some [.root] :=
  completes_start_iff.symm.trans (completes_iff_steps (show StackOK [.start, .root] from rfl))

theorem jsonTokenizerParseAll_document {r : Reader} {kinds : List JsonTokenKind} {texts : List (List Byte)} (hat : r.AtByte)
    (htext : IsJsonText kinds) (hnesting : NestingFits 0 kinds) (hlexemes : List.Forall₂ Lexeme kinds texts)
    (hbytes : r.unreadBytes = texts.flatten) :
    ∃ tokens t, jsonTokenizerParseAll (r.unreadBytes.length + 1) (jsonTokenizerInit r) = some (tokens, t) ∧
      tokens.map JsonToken.kind = kinds ∧ tokens.map printToken = texts ∧ jsonTokenizerIsDone t = some true := by
  have hsteps := (isJsonText_iff_steps kinds).mp htext
  exact jsonTokenizerParseAll_lexemes ⟨rfl, by decide, by simp [RoomOK]⟩ hat hsteps hnesting hlexemes hbytes
    (Nat.lt_succ_self _)

/-- **A document has one reading**: the tokenizer returns the tokens it is
spelled by, and the same bytes are spelled by no others. -/
theorem json_tokenizer_tokens {kinds : List JsonTokenKind} {texts : List (List Byte)} (htext : IsJsonText kinds)
    (hnesting : NestingFits 0 kinds) (hlexemes : List.Forall₂ Lexeme kinds texts) {r : Reader} (hat : r.AtByte)
    (hbytes : r.unreadBytes = texts.flatten) :
    ∃ tokens t, jsonTokenizerParseAll (r.unreadBytes.length + 1) (jsonTokenizerInit r) = some (tokens, t) ∧
      tokens.map JsonToken.kind = kinds ∧ tokens.map printToken = texts ∧ jsonTokenizerIsDone t = some true ∧
      ∀ kinds' texts', IsJsonText kinds' → NestingFits 0 kinds' → List.Forall₂ Lexeme kinds' texts' →
        texts'.flatten = texts.flatten → kinds' = kinds ∧ texts' = texts := by
  obtain ⟨tokens, t, hall, hkinds, htexts, hdone⟩ := jsonTokenizerParseAll_document hat htext hnesting hlexemes hbytes
  refine ⟨tokens, t, hall, hkinds, htexts, hdone, fun kinds' texts' htext' hnesting' hlexemes' hsame => ?_⟩
  obtain ⟨tokens', t', hall', hkinds', htexts', -⟩ :=
    jsonTokenizerParseAll_document hat htext' hnesting' hlexemes' (hbytes.trans hsame.symm)
  obtain ⟨rfl, -⟩ := Prod.mk.inj (Option.some.inj (hall'.symm.trans hall))
  exact ⟨hkinds'.symm.trans hkinds, htexts'.symm.trans htexts⟩

/-- The text `-1.5`. -/
theorem oneAndHalf_before :
    NumberText.Before { negative := true, integer := [0x31], fraction := some [0x35], exponent := none } [] := by
  have hdigit : ∀ b ∈ ([0x31] : List Byte), isDigit b = true := List.forall_mem_singleton.2 rfl
  have hdigit' : ∀ b ∈ ([0x35] : List Byte), isDigit b = true := List.forall_mem_singleton.2 rfl
  exact ⟨⟨⟨⟨by simp, hdigit, by simp [fractionBytes, isDigit]⟩, by decide, by decide⟩, .inl rfl⟩,
    ⟨⟨by simp, hdigit', by simp [exponentBytes]⟩, by decide, by decide⟩, by simp [ExponentBefore]⟩

def stringArrayKinds : List JsonTokenKind :=
  [.arrayOpen, .number, .valueSeparator, .stringDelimiter, .unicodeCharacter, .escapeSequence, .stringDelimiter, .arrayClose]

def stringArrayTexts : List (List Byte) :=
  [[0x5b], [0x2d, 0x31, 0x2e, 0x35], [0x2c], [0x22], [0xc3, 0xa9], [0x5c, 0x6e], [0x22], [0x5d]]

/-- `[-1.5,"é\n"]`, from a fresh reader. -/
theorem json_tokenizer_tokens_array :
    ∃ r tokens t, r.unreadBytes = stringArrayTexts.flatten ∧
      jsonTokenizerParseAll (r.unreadBytes.length + 1) (jsonTokenizerInit r) = some (tokens, t) ∧
      tokens.map JsonToken.kind = stringArrayKinds ∧ tokens.map printToken = stringArrayTexts ∧
      jsonTokenizerIsDone t = some true ∧
      ∀ kinds' texts', IsJsonText kinds' → NestingFits 0 kinds' → List.Forall₂ Lexeme kinds' texts' →
        texts'.flatten = stringArrayTexts.flatten → kinds' = stringArrayKinds ∧ texts' = stringArrayTexts := by
  obtain ⟨r, -, hat, hunread, -⟩ := @Reader.AtByte.push _ (bufferMake stringArrayTexts.flatten) (.init contextInit) (by decide)
  rw [readerInit_unreadBytes, bufferMake_bytes, List.nil_append] at hunread
  have hnesting : NestingFits 0 stringArrayKinds := by simp [stringArrayKinds, NestingFits, nestingAfter, isOpenKind,
    isCloseKind, JSON_MAX_STATE_STACK_LENGTH]
  have hcharacter : IsCharacter [0xc3, 0xa9] := .two (by decide) (by decide) ⟨by decide, by decide⟩
  have hlexemes : List.Forall₂ Lexeme stringArrayKinds stringArrayTexts :=
    .cons .arrayOpen (.cons (.number oneAndHalf_before) (.cons .valueSeparator (.cons .stringDelimiter
      (.cons (.unicodeCharacter hcharacter) (.cons (.escapeSequence (by decide)) (.cons .stringDelimiter
        (.cons .arrayClose .nil)))))))
  obtain ⟨tokens, t, hall⟩ := json_tokenizer_tokens ((isJsonText_iff_steps stringArrayKinds).mpr rfl) hnesting hlexemes hat
    hunread
  exact ⟨r, tokens, t, hunread, hall⟩

/-! ## Unicode texts -/

/-- How a character is written in a string. -/
def jsonCharKind (c : Char) : JsonTokenKind :=
  if c.toNat = 0x22 ∨ c.toNat = 0x5c then .escapeSequence else if c.toNat < 0x20 then .escapedUnicodeCharcode else .unicodeCharacter

def hexDigit (n : Nat) : Byte := UInt8.ofNat (if n < 10 then 0x30 + n else 0x57 + n)

def jsonCharText (c : Char) : List Byte :=
  if c.toNat = 0x22 ∨ c.toNat = 0x5c then [0x5c, UInt8.ofNat c.toNat]
  else if c.toNat < 0x20 then [0x5c, 0x75, 0x30, 0x30, hexDigit (c.toNat / 16), hexDigit (c.toNat % 16)]
  else String.utf8EncodeChar c

theorem hexDigit_isHexDigit {n : Nat} (h : n < 16) : IsHexDigit (hexDigit n) := by
  have hall : ∀ n < 16, IsHexDigit (hexDigit n) := by
    intro n h
    interval_cases n <;> simp [hexDigit, IsHexDigit]
  exact hall n h

theorem utf8EncodeChar_isCharacter {c : Char} (hquote : c.toNat ≠ 0x22) (hslash : c.toNat ≠ 0x5c) (hcontrol : 0x20 ≤ c.toNat) :
    IsCharacter (String.utf8EncodeChar c) := by
  have hvalid : c.toNat < 0x110000 := by
    rcases c.valid with h | ⟨-, h⟩
    · exact Nat.lt_trans h (by decide)
    · exact h
  have hval : c.val.toNat = c.toNat := rfl
  unfold String.utf8EncodeChar
  simp only [hval]
  generalize c.toNat = v at *
  have hle : ∀ (a : Byte) (n : Nat), n < 256 → (a ≤ UInt8.ofNat n ↔ a.toNat ≤ n) ∧ (UInt8.ofNat n ≤ a ↔ n ≤ a.toNat) := by
    intro a n hn
    rw [UInt8.le_iff_toNat_le, UInt8.le_iff_toNat_le, UInt8.toNat_ofNat', Nat.mod_eq_of_lt hn]
    exact ⟨Iff.rfl, Iff.rfl⟩
  have hrange : ∀ (a b : Byte) (n : Nat), a.toNat ≤ n → n ≤ b.toNat → a ≤ UInt8.ofNat n ∧ UInt8.ofNat n ≤ b := by
    intro a b n ha hb
    have hn := Nat.lt_of_le_of_lt hb b.toNat_lt
    exact ⟨(hle a n hn).1.mpr ha, (hle b n hn).2.mpr hb⟩
  have htail : ∀ n, IsContinuation (UInt8.ofNat (n % 0x40 + 0x80)) := fun n =>
    hrange 0x80 0xbf _ (show 0x80 ≤ _ by omega) (show _ ≤ 0xbf by omega)
  have hother : ∀ (a : Byte) (n : Nat), n < 256 → n ≠ a.toNat → UInt8.ofNat n ≠ a := by
    intro a n hn hna he
    rw [← he, UInt8.toNat_ofNat', Nat.mod_eq_of_lt hn] at hna
    exact hna rfl
  split_ifs with hone htwo hthree
  · obtain ⟨hfrom, hto⟩ := hrange 0x20 0x7f v hcontrol hone
    exact .one hfrom hto (hother 0x22 v (by omega) hquote) (hother 0x5c v (by omega) hslash)
  · obtain ⟨hfrom, hto⟩ := hrange 0xc2 0xdf (v / 64 % 0x20 + 0xc0) (show 0xc2 ≤ _ by omega) (show _ ≤ 0xdf by omega)
    exact .two hfrom hto (htail v)
  · obtain ⟨hfrom, hto⟩ := hrange 0xe0 0xef (v / 4096 % 0x10 + 0xe0) (show 0xe0 ≤ _ by omega) (show _ ≤ 0xef by omega)
    exact .three hfrom hto (htail (v / 64)) (htail v)
  · obtain ⟨hfrom, hto⟩ := hrange 0xf0 0xf4 (v / 262144 % 0x08 + 0xf0) (show 0xf0 ≤ _ by omega) (show _ ≤ 0xf4 by omega)
    exact .four hfrom hto (htail (v / 4096)) (htail (v / 64)) (htail v)

theorem jsonCharText_lexeme (c : Char) : Lexeme (jsonCharKind c) (jsonCharText c) := by
  unfold jsonCharKind jsonCharText
  by_cases hescaped : c.toNat = 0x22 ∨ c.toNat = 0x5c
  · rw [if_pos hescaped, if_pos hescaped]
    refine .escapeSequence ?_
    rcases hescaped with he | he <;> rw [he] <;> decide
  rw [if_neg hescaped, if_neg hescaped]
  by_cases hcontrol : c.toNat < 0x20
  · rw [if_pos hcontrol, if_pos hcontrol]
    exact .escapedUnicodeCharcode (hexDigit_isHexDigit (show 0 < 16 by decide)) (hexDigit_isHexDigit (show 0 < 16 by decide))
      (hexDigit_isHexDigit (by omega)) (hexDigit_isHexDigit (by omega))
  · rw [if_neg hcontrol, if_neg hcontrol]
    exact .unicodeCharacter (utf8EncodeChar_isCharacter (fun he => hescaped (.inl he)) (fun he => hescaped (.inr he)) (by omega))

def jsonStringKinds (text : List Char) : List JsonTokenKind :=
  .stringDelimiter :: (text.map jsonCharKind ++ [.stringDelimiter])

def jsonStringTexts (text : List Char) : List (List Byte) := [0x22] :: (text.map jsonCharText ++ [[0x22]])

theorem jsonCharKind_isString (c : Char) : isStringCharacterKind (jsonCharKind c) = true := by
  unfold jsonCharKind
  split_ifs <;> rfl

theorem isStringCharacterKind_flat {kind : JsonTokenKind} (h : isStringCharacterKind kind = true) :
    kind ≠ .stringDelimiter ∧ isOpenKind kind = false ∧ isCloseKind kind = false := by
  cases kind <;> first | exact ⟨by decide, rfl, rfl⟩ | cases h

theorem jsonString_isJsonText (text : List Char) : IsJsonText (jsonStringKinds text) := by
  have hchars : ∀ text : List Char, jsmSteps [.string, .root] (text.map jsonCharKind ++ [.stringDelimiter]) = some [.root] := by
    intro text
    induction text with
    | nil => rfl
    | cons c text ih =>
      have hstep : jsmStep [.string, .root] (jsonCharKind c) = some [.string, .root] := by
        have hkind := jsonCharKind_isString c
        simp [jsmStep, hkind, (isStringCharacterKind_flat hkind).1]
      rw [List.map_cons, List.cons_append, jsmSteps, hstep]
      exact ih
  exact (isJsonText_iff_steps _).mpr (hchars text)

/-- A text opens no container. -/
theorem nestingFits_flat {kinds : List JsonTokenKind} (h : ∀ kind ∈ kinds, isOpenKind kind = false ∧ isCloseKind kind = false) :
    NestingFits 0 kinds := by
  induction kinds with
  | nil => trivial
  | cons kind kinds ih =>
    obtain ⟨⟨hopen, hclose⟩, hrest⟩ := List.forall_mem_cons.mp h
    refine ⟨fun hfull => absurd hfull (by decide), ?_⟩
    rw [nestingAfter, hopen, hclose]
    exact ih hrest

theorem jsonString_nestingFits (text : List Char) : NestingFits 0 (jsonStringKinds text) := by
  refine nestingFits_flat fun kind hmem => ?_
  simp only [jsonStringKinds, List.mem_cons, List.mem_append, List.mem_map, List.not_mem_nil, or_false] at hmem
  obtain rfl | ⟨c, -, rfl⟩ | rfl := hmem
  · exact ⟨rfl, rfl⟩
  · exact (isStringCharacterKind_flat (jsonCharKind_isString c)).2
  · exact ⟨rfl, rfl⟩

theorem jsonString_lexemes (text : List Char) : List.Forall₂ Lexeme (jsonStringKinds text) (jsonStringTexts text) := by
  have hchars : List.Forall₂ Lexeme (text.map jsonCharKind) (text.map jsonCharText) := by
    induction text with
    | nil => exact .nil
    | cons c text ih => exact .cons (jsonCharText_lexeme c) ih
  exact .cons .stringDelimiter (List.rel_append hchars (.cons .stringDelimiter .nil))

/-- **Every Unicode text is a document**: between quotes, with quotes,
backslashes and control characters escaped, the tokenizer takes it in
completely, one token for each character. -/
theorem json_tokenizer_text (text : List Char) {r : Reader} (hat : r.AtByte)
    (hbytes : r.unreadBytes = (jsonStringTexts text).flatten) :
    IsJsonDocument r.unreadBytes ∧
      ∃ tokens t, jsonTokenizerParseAll (r.unreadBytes.length + 1) (jsonTokenizerInit r) = some (tokens, t) ∧
        tokens.map JsonToken.kind = .stringDelimiter :: (text.map jsonCharKind ++ [.stringDelimiter]) ∧
        tokens.map printToken = [0x22] :: (text.map jsonCharText ++ [[0x22]]) ∧ jsonTokenizerIsDone t = some true := by
  refine ⟨⟨_, _, jsonString_isJsonText text, jsonString_nestingFits text, jsonString_lexemes text, hbytes⟩, ?_⟩
  exact jsonTokenizerParseAll_document hat (jsonString_isJsonText text) (jsonString_nestingFits text)
    (jsonString_lexemes text) hbytes

/-- A quote, a line feed, and characters of one to four bytes. -/
theorem json_tokenizer_text_six :
    ∃ r tokens t, r.unreadBytes = (jsonStringTexts ([0x22, 0x0a, 0x61, 0xe9, 0x20ac, 0x1f600].map Char.ofNat)).flatten ∧
      jsonTokenizerParseAll (r.unreadBytes.length + 1) (jsonTokenizerInit r) = some (tokens, t) ∧
      tokens.map JsonToken.kind = [.stringDelimiter, .escapeSequence, .escapedUnicodeCharcode, .unicodeCharacter,
        .unicodeCharacter, .unicodeCharacter, .unicodeCharacter, .stringDelimiter] ∧ jsonTokenizerIsDone t = some true := by
  obtain ⟨r, -, hat, hunread, -⟩ := @Reader.AtByte.push _
    (bufferMake (jsonStringTexts ([0x22, 0x0a, 0x61, 0xe9, 0x20ac, 0x1f600].map Char.ofNat)).flatten) (.init contextInit) (by decide)
  rw [readerInit_unreadBytes, bufferMake_bytes, List.nil_append] at hunread
  obtain ⟨-, tokens, t, hall, hkinds, -, hdone⟩ := json_tokenizer_text ([0x22, 0x0a, 0x61, 0xe9, 0x20ac, 0x1f600].map Char.ofNat) hat hunread
  exact ⟨r, tokens, t, hunread, hall, hkinds, hdone⟩

end Scomp
