/-! # Digits of all scripts

Decimal digits of every script, and digits in superscript, subscript or a circle. -/
namespace QuantumCircuits
namespace Text
def decimalRuns : List Nat :=
  [0x30,0x660,0x6f0,0x7c0,0x966,0x9e6,0xa66,0xae6,0xb66,0xbe6,0xc66,0xce6,0xd66,0xde6,0xe50,0xed0,
   0xf20,0x1040,0x1090,0x17e0,0x1810,0x1946,0x19d0,0x1a80,0x1a90,0x1b50,0x1bb0,0x1c40,0x1c50,0xa620,
   0xa8d0,0xa900,0xa9d0,0xa9f0,0xaa50,0xabf0,0xff10,0x104a0,0x10d30,0x11066,0x110f0,0x11136,0x111d0,
   0x112f0,0x11450,0x114d0,0x11650,0x116c0,0x11730,0x118e0,0x11950,0x11c50,0x11d50,0x11da0,0x16a60,
   0x16b50,0x1d7ce,0x1d7d8,0x1d7e2,0x1d7ec,0x1d7f6,0x1e140,0x1e2f0,0x1e950,0x1fbf0]

def otherDigits : List (Nat × Nat) :=
  [(0xb2,0xb3),(0xb9,0xb9),(0x1369,0x1371),(0x19da,0x19da),(0x2070,0x2070),(0x2074,0x2079),
   (0x2080,0x2089),(0x2460,0x2468),(0x2474,0x247c),(0x2488,0x2490),(0x24ea,0x24ea),(0x24f5,0x24fd),
   (0x24ff,0x24ff),(0x2776,0x277e),(0x2780,0x2788),(0x278a,0x2792),(0x10a40,0x10a43),(0x10e60,0x10e68),
   (0x11052,0x1105a),(0x1f100,0x1f10a)]

def isDigit (c : Char) : Bool :=
  c.isDigit || (128 ≤ c.toNat &&
    (decimalRuns.any (fun a => a ≤ c.toNat && c.toNat < a+10) ||
      otherDigits.any (fun r => r.1 ≤ c.toNat && c.toNat ≤ r.2)))

/-! ## Pieces of text -/

def join (sep : String) : List String → String
  | [] => ""
  | [s] => s
  | s :: r => s ++ sep ++ join sep r

def blanks (n : Nat) : String := String.ofList (List.replicate n ' ')
def padRight (w : Nat) (s : String) : String := s ++ blanks (w-s.length)
def padLeft (w : Nat) (s : String) : String := blanks (w-s.length) ++ s
def repeatText (n : Nat) (s : String) : String := join "" (List.replicate n s)

def splitChars (p : Char → Bool) : List Char → List (List Char)
  | [] => [[]]
  | c :: r =>
    match splitChars p r with
    | [] => [[c]]
    | w :: ws => if p c then [] :: w :: ws else (c :: w) :: ws

def splitAt (c : Char) (s : String) : List String := (splitChars (· == c) s.toList).map String.ofList
def lines (s : String) : List String := splitAt '\n' s

def afterStart? : List Char → List Char → Option (List Char)
  | [], cs => some cs
  | p :: ps, c :: cs => if p == c then afterStart? ps cs else none
  | _ :: _, [] => none

/-- Replaces every occurrence of `old`, from the left; `skip` characters belong to an occurrence already replaced. -/
def replaceFrom (old new : List Char) : Nat → List Char → List Char
  | _, [] => []
  | 0, c :: cs =>
    match afterStart? old (c :: cs) with
    | some _ => if old.isEmpty then c :: replaceFrom old new 0 cs else new ++ replaceFrom old new (old.length-1) cs
    | none => c :: replaceFrom old new 0 cs
  | k+1, _ :: cs => replaceFrom old new k cs

def replace (old new s : String) : String := String.ofList (replaceFrom old.toList new.toList 0 s.toList)

def containsFrom (old : List Char) : List Char → Bool
  | [] => old.isEmpty
  | c :: cs => (afterStart? old (c :: cs)).isSome || containsFrom old cs

def contains (old s : String) : Bool := containsFrom old.toList s.toList
def startsWith (pre s : String) : Bool := (afterStart? pre.toList s.toList).isSome
def endsWith (post s : String) : Bool := (afterStart? post.toList.reverse s.toList.reverse).isSome
def dropStart (n : Nat) (s : String) : String := String.ofList (s.toList.drop n)
def takeStart (n : Nat) (s : String) : String := String.ofList (s.toList.take n)

def isBlank (c : Char) : Bool :=
  c == ' ' || ('\t' ≤ c && c ≤ '\r') || ('\x1c' ≤ c && c ≤ '\x1f') || c == '\u0085' || c == '\u00a0' || c == '\u1680'
    || ('\u2000' ≤ c && c ≤ '\u200a') || c == '\u2028' || c == '\u2029' || c == '\u202f' || c == '\u205f' || c == '\u3000'

def trimLeftChars (cs : List Char) : List Char := cs.dropWhile isBlank
def trimRightChars (cs : List Char) : List Char := (cs.reverse.dropWhile isBlank).reverse
def trimRight (s : String) : String := String.ofList (trimRightChars s.toList)
def trim (s : String) : String := String.ofList (trimRightChars (trimLeftChars s.toList))

def before : List Char → List Char → Bool
  | _, [] => false
  | [], _ :: _ => true
  | a :: r, b :: s => if a == b then before r s else a < b

def lt (s t : String) : Bool := before s.toList t.toList
def le (s t : String) : Bool := !lt t s
def sort (xs : List String) : List String := xs.mergeSort le

/-! ## Quoted text

Text between single quotes, or between double quotes when it holds a single quote and no double one. -/
def hexDigit (n : Nat) : Char := if n < 10 then Char.ofNat (48+n) else Char.ofNat (87+n)

def hex : Nat → Nat → List Char
  | 0, _ => []
  | k+1, n => hex k (n/16) ++ [hexDigit (n % 16)]

def isPrintable (c : Char) : Bool :=
  let n := c.toNat
  (32 ≤ n && n < 127) || (0xa1 ≤ n && n != 0xad && !(0x2000 ≤ n && n ≤ 0x200f) && !(0x2028 ≤ n && n ≤ 0x202f)
    && !(0x205f ≤ n && n ≤ 0x206f) && n != 0x3000 && n != 0xfeff && !(0xe000 ≤ n && n ≤ 0xf8ff))

def escapeChar (q c : Char) : List Char :=
  if c == q || c == '\\' then ['\\',c]
  else if c == '\n' then ['\\','n']
  else if c == '\r' then ['\\','r']
  else if c == '\t' then ['\\','t']
  else if isPrintable c then [c]
  else if c.toNat < 256 then '\\' :: 'x' :: hex 2 c.toNat
  else if c.toNat < 65536 then '\\' :: 'u' :: hex 4 c.toNat
  else '\\' :: 'U' :: hex 8 c.toNat

def quoteMark (cs : List Char) : Char := if cs.contains '\'' && !cs.contains '"' then '"' else '\''

def quoted (s : String) : String :=
  let cs := s.toList
  let q := quoteMark cs
  String.ofList (q :: (cs.flatMap (escapeChar q) ++ [q]))

def quotedBytes (s : String) : String :=
  let q := quoteMark s.toList
  let one (b : UInt8) : List Char :=
    let c := Char.ofNat b.toNat
    if b.toNat < 127 then escapeChar q c else '\\' :: 'x' :: hex 2 b.toNat
  String.ofList ('b' :: q :: (s.toUTF8.toList.flatMap one ++ [q]))

def bracketed (xs : List String) : String := "[" ++ join ", " xs ++ "]"

def parenthesized : List String → String
  | [x] => s!"({x},)"
  | xs => "(" ++ join ", " xs ++ ")"

def braced (xs : List String) : String := "\x7b" ++ join ", " xs ++ "\x7d"
def boolText (b : Bool) : String := if b then "True" else "False"
end Text

/-! ## Percent codes -/
namespace Text
def percentCoded (others : List Char) (s : String) : String :=
  String.ofList (s.toUTF8.toList.flatMap fun b =>
    let c := Char.ofNat b.toNat
    if c.isAlphanum || ['_','.','-','~'].contains c || others.contains c then [c]
    else '%' :: (hex 2 b.toNat).map Char.toUpper)

def percentCodedQuery (s : String) : String := replace " " "+" (percentCoded [' '] s)
end Text

/-! ## Faults

The kind of cause, and where the program itself noticed it also an explanation. -/

inductive Cause where
  | value | type | key | index | attribute | zeroDivision | stopped | notFound | system | assertion | overflow
  | unimplemented | recursion | environment | runtime | missingFile | named (kind : String)
  deriving DecidableEq

structure Fault where
  cause : Cause
  explanation : Option String := none

abbrev Outcome (α : Type) := Except Fault α
abbrev Check := Outcome Unit
namespace Fault
def value (why : String) : Fault := ⟨.value,some why⟩
def type (why : String) : Fault := ⟨.type,some why⟩
def bare (c : Cause) : Fault := ⟨c,none⟩
end Fault
def fails {α : Type} (c : Cause) : Outcome α := .error (.bare c)

def orFail {α : Type} (c : Cause) : Option α → Outcome α
  | some a => .ok a
  | none => fails c

theorem of_bind_eq_ok {α β : Type} {x : Outcome α} {f : α → Outcome β} {b : β} (h : x >>= f = .ok b) :
    ∃ a, x = .ok a ∧ f a = .ok b := by
  cases x with
  | error fault => cases h
  | ok a => exact ⟨a,rfl,h⟩

theorem forM_eq_ok_iff {α : Type} {check : α → Check} {xs : List α} :
    xs.forM check = .ok () ↔ ∀ x ∈ xs, check x = .ok () := by
  induction xs with
  | nil => simp [List.forM,pure,Except.pure]
  | cons x xs ih =>
    rw [List.forall_mem_cons,← ih]
    change (check x >>= fun _ => xs.forM check) = .ok () ↔ _
    constructor
    · intro h
      obtain ⟨_,hx,hxs⟩ := of_bind_eq_ok h
      exact ⟨hx,hxs⟩
    · rintro ⟨hx,hxs⟩
      rw [hx]
      exact hxs
end QuantumCircuits
