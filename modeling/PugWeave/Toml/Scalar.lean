import PugWeave.Toml.Decimal
import PugWeave.Toml.Quoted

namespace PugWeave.Toml

def digits? (isDigit : Char → Bool) (t : Text) : Option Text :=
  let groups := Text.split ['_'] t
  if groups.all fun g => !g.isEmpty && g.all isDigit then some groups.flatten else none

def ofDigits (base : Nat) (digits : Text) : Nat :=
  digits.foldl (fun n c => base * n + (hexDigit? c).getD 0) 0

def whole? (t : Text) : Option Text := do
  let digits ← digits? Char.isDigit t
  if t.head? = some '0' && t.length ≠ 1 then none else some digits

def natural? (t : Text) : Option Nat := (whole? t).map (ofDigits 10)

def unsigned? : Text → Option Nat
  | '0' :: 'x' :: r => (digits? (fun c => (hexDigit? c).isSome) r).map (ofDigits 16)
  | '0' :: 'o' :: r => (digits? (fun c => '0' ≤ c && c ≤ '7') r).map (ofDigits 8)
  | '0' :: 'b' :: r => (digits? (fun c => c = '0' || c = '1') r).map (ofDigits 2)
  | t => natural? t

def integer? : Text → Option Int
  | '+' :: r => (natural? r).map Int.ofNat
  | '-' :: r => (natural? r).map fun n => -(n : Int)
  | t => (unsigned? t).map Int.ofNat

def dropSign : Text → Text
  | '+' :: r => r
  | '-' :: r => r
  | t => t

def exponent? (t : Text) : Option Int := do
  let n := ofDigits 10 (← digits? Char.isDigit (dropSign t))
  some (if t.head? = some '-' then -n else n)

def fraction? (t : Text) : Option (Text × Int) := do
  let mantissa := t.takeWhile fun c => c ≠ 'e' && c ≠ 'E'
  let places ← digits? Char.isDigit mantissa
  match t.drop mantissa.length with
  | [] => some (places, 0)
  | _ :: r => (exponent? r).map fun exponent => (places, exponent)

def decimal? (t : Text) : Option Decimal := do
  let mantissa := t.takeWhile fun c => c ≠ '.' && c ≠ 'e' && c ≠ 'E'
  let digits ← whole? mantissa
  match t.drop mantissa.length with
  | [] => none
  | '.' :: r =>
    let (places, exponent) ← fraction? r
    some ⟨ofDigits 10 (digits ++ places), exponent - places.length⟩
  | _ :: r => (exponent? r).map fun exponent => ⟨ofDigits 10 digits, exponent⟩

def isFloat (t : Text) : Bool :=
  let t := dropSign t
  t = "inf".toList || t = "nan".toList || (decimal? t).any Decimal.isFinite

def field? (width : Nat) (t : Text) : Option (Nat × Text) :=
  let digits := t.take width
  if digits.length = width && digits.all Char.isDigit then some (ofDigits 10 digits, t.drop width)
  else none

def expect? (c : Char) : Text → Option Text
  | d :: r => if d = c then some r else none
  | [] => none

def daysIn (year month : Nat) : Nat :=
  if month = 2 then if year % 4 = 0 && (year % 100 ≠ 0 || year % 400 = 0) then 29 else 28
  else if month = 4 || month = 6 || month = 9 || month = 11 then 30
  else 31

def date? (t : Text) : Option Text := do
  let (year, t) ← field? 4 t
  let (month, t) ← field? 2 (← expect? '-' t)
  let (day, t) ← field? 2 (← expect? '-' t)
  if 1 ≤ month && month ≤ 12 && 1 ≤ day && day ≤ daysIn year month then some t else none

def seconds? (t : Text) : Option Text := do
  let (second, t) ← field? 2 t
  if 61 ≤ second then none
  else
    match t with
    | '.' :: r => if r.head?.any Char.isDigit then some (r.dropWhile Char.isDigit) else none
    | t => some t

def time? (t : Text) : Option Text := do
  let (hour, t) ← field? 2 t
  let (minute, t) ← field? 2 (← expect? ':' t)
  if 24 ≤ hour || 60 ≤ minute then none
  else
    match t with
    | ':' :: r => seconds? r
    | t => some t

def isOffset (t : Text) : Bool :=
  match t with
  | [c] => c = 'Z' || c = 'z'
  | c :: r =>
    let rest := do
      let (hour, r) ← field? 2 r
      let (minute, r) ← field? 2 (← expect? ':' r)
      if 24 ≤ hour || 60 ≤ minute then none else some r
    (c = '+' || c = '-') && rest = some []
  | [] => false

def isMoment (t : Text) : Bool :=
  time? t = some [] ||
    match date? t with
    | none => false
    | some [] => true
    | some (c :: r) =>
      (c = 'T' || c = 't' || c = ' ') &&
        match time? r with
        | none => false
        | some rest => rest.isEmpty || isOffset rest

def isAtomChar (c : Char) : Bool :=
  c.isAlphanum || c = '_' || c = '-' || c = '+' || c = '.' || c = ':'

def atom (t : Text) : Text × Text :=
  let first := t.takeWhile isAtomChar
  let rest := t.drop first.length
  match rest with
  | ' ' :: c :: _ =>
    if date? first = some [] && c.isDigit then
      let second := (rest.drop 1).takeWhile isAtomChar
      (first ++ ' ' :: second, rest.drop (second.length + 1))
    else (first, rest)
  | _ => (first, rest)

end PugWeave.Toml
