import Mathlib.Data.Nat.Digits.Defs
import Wordcode.Proofs.Listing

/-!
# The forms of operands

What a token stands for as an operand, said without reading it: its first character tells a label
and a numeral, a register is a sign and decimal digits, and what is left is a name. Numerals have
their positional value, and one that does not fit the widest word is not a numeral of that form, so
that what begins as a register may be the name of a value after all.

The forms are also what readers find that are put together from combinators, whatever these are, as
long as they behave as documented (`Text.Readers`). The alternatives for literals are tried in
order there, and the first that succeeds need not have read all of the token.

* `Text.numeral?_eq_some_iff`, `Text.literal?_eq_some_iff`: the positional value of digits;
* `Text.Readers.Documented.alt_eq_some_iff`: the alternatives of literals, tried in order;
* `Scope.operandBy_eq`: the combined readers find what `Scope.operand` finds;
* `Scope.operand_eq_iff_reads`: what a token stands for is what its form says.
-/

namespace Wordcode

namespace Text

variable {base n value d : Nat} {c : Char} {cs : List Char}

/-! ## Numerals -/

/-- A character is a digit of a base, where a letter may be a capital. -/
def IsDigit (base : Nat) (c : Char) (d : Nat) : Prop :=
  d < base ∧ (c = d.digitChar ∨ c = d.digitChar.toUpper)

/-- One or more digits, the first of which counts most. -/
def IsNumeral (base : Nat) (cs : List Char) (n : Nat) : Prop :=
  cs ≠ [] ∧ ∃ ds, List.Forall₂ (IsDigit base) cs ds ∧ n = Nat.ofDigits base ds.reverse

/-- A numeral in one of three bases. -/
inductive IsLiteral : List Char → Nat → Prop
  | hexadecimal {sign : Char} {cs : List Char} {n : Nat} : sign = 'x' ∨ sign = 'X' →
      IsNumeral 16 cs n → IsLiteral ('0' :: sign :: cs) n
  | binary {sign : Char} {cs : List Char} {n : Nat} : sign = 'b' ∨ sign = 'B' →
      IsNumeral 2 cs n → IsLiteral ('0' :: sign :: cs) n
  | decimal {cs : List Char} {n : Nat} : IsNumeral 10 cs n → IsLiteral cs n

/-- A sign and the decimal digits of an index. -/
def IsRegister (cs : List Char) (index : Nat) : Prop :=
  ∃ sign digits, cs = sign :: digits ∧ sign ∈ ['R', 'r', '$'] ∧ IsNumeral 10 digits index ∧
    index < Word.limit

/-- A character is read as the digit of base 16 that it is. -/
theorem digit?_eq_some_iff : digit? c = some d ↔ IsDigit 16 c d := by
  constructor
  · intro h
    -- all digits are ASCII characters, few enough to look at each of them
    have hascii : ∀ n < 128, ∀ d ∈ digit? (Char.ofNat n), d < 16 ∧
        (Char.ofNat n = d.digitChar ∨ Char.ofNat n = d.digitChar.toUpper) := by decide +kernel
    have hc : c.toNat < 128 := by
      by_contra hc
      have hhigh (last : Char) (hlast : last.toNat < 128) : ¬c ≤ last := fun hle => by
        have : c.toNat ≤ last.toNat := hle
        omega
      simp [digit?, hhigh '9' (by decide), hhigh 'f' (by decide), hhigh 'F' (by decide)] at h
    rw [← Char.ofNat_toNat c] at h ⊢
    exact hascii _ hc d h
  · have hdigits : ∀ d < 16, digit? d.digitChar = some d ∧ digit? d.digitChar.toUpper = some d := by
      decide
    rintro ⟨hd, rfl | rfl⟩
    · exact (hdigits d hd).1
    · exact (hdigits d hd).2

theorem isDigit_iff_digit? (hb : base ≤ 16) : IsDigit base c d ↔ digit? c = some d ∧ d < base := by
  rw [digit?_eq_some_iff, IsDigit, IsDigit]
  constructor
  · exact fun h => ⟨⟨by omega, h.2⟩, h.1⟩
  · exact fun h => ⟨h.2, h.1.2⟩

theorem addDigit?_eq_some_iff (hb : base ≤ 16) :
    addDigit? base value c = some n ↔ ∃ d, IsDigit base c d ∧ n = value * base + d := by
  simp only [isDigit_iff_digit? hb, addDigit?]
  rcases digit? c with _ | d
  · simp
  · simp [and_comm, eq_comm]

/-- A numeral that is continued by digits gets them as its last ones. -/
theorem foldlM_addDigit?_eq_some_iff (hb : base ≤ 16) :
    cs.foldlM (addDigit? base) value = some n ↔
      ∃ ds, List.Forall₂ (IsDigit base) cs ds ∧ n = Nat.ofDigits base (ds.reverse ++ [value]) := by
  induction cs generalizing value with
  | nil => simp [eq_comm]
  | cons c cs ih =>
    have hcons (d : Nat) (ds : List Nat) :
        Nat.ofDigits base (ds.reverse ++ [value * base + d]) =
          Nat.ofDigits base ((d :: ds).reverse ++ [value]) := by
      rw [List.reverse_cons, List.append_assoc, Nat.ofDigits_append,
        @Nat.ofDigits_append base ds.reverse, Nat.ofDigits_singleton, List.singleton_append,
        Nat.ofDigits_cons, Nat.ofDigits_singleton, Nat.add_comm d, Nat.mul_comm base]
    simp only [List.foldlM_cons, Option.bind_eq_bind, Option.bind_eq_some_iff,
      addDigit?_eq_some_iff hb, ih]
    constructor
    · rintro ⟨_, ⟨d, hd, rfl⟩, ds, hds, rfl⟩
      exact ⟨d :: ds, .cons hd hds, hcons d ds⟩
    · rintro ⟨_, hds, rfl⟩
      cases hds with
      | cons hd hds => exact ⟨_, ⟨_, hd, rfl⟩, _, hds, (hcons _ _).symm⟩

/-- The value of a numeral is its positional value, which must fit the widest word. -/
theorem numeral?_eq_some_iff (hb : base ≤ 16) :
    numeral? base cs = some n ↔ IsNumeral base cs n ∧ n < Word.limit := by
  have hzero (ds : List Nat) :
      Nat.ofDigits base (ds.reverse ++ [0]) = Nat.ofDigits base ds.reverse :=
    Nat.ofDigits_append_zero _
  rw [numeral?, Option.filter_eq_some_iff, digits?, IsNumeral, decide_eq_true_iff]
  refine and_congr_left fun _ => ?_
  cases cs with
  | nil => simp
  | cons c cs =>
    rw [List.isEmpty_cons, if_neg Bool.false_ne_true, foldlM_addDigit?_eq_some_iff hb]
    simp only [hzero, ne_eq, List.cons_ne_nil, not_false_eq_true, true_and]

theorem isDigit_eq_decide (c : Char) : c.isDigit = decide ('0' ≤ c ∧ c ≤ '9') := by
  rw [Char.isDigit, Bool.decide_and]
  rfl

theorem startsWithDigit_iff : startsWithDigit cs = true ↔ ∃ c ∈ cs.head?, c.isDigit = true := by
  rcases cs with _ | ⟨c, cs⟩
  · simp [startsWithDigit]
  · simp [startsWithDigit, isDigit_eq_decide]

theorem isDigit_iff : c.isDigit = true ↔ ∃ d, IsDigit 10 c d := by
  simp only [isDigit_iff_digit? (show 10 ≤ 16 by decide)]
  rw [isDigit_eq_decide, decide_eq_true_iff, digit?]
  split_ifs with hd
  · have hle : c.toNat ≤ 57 := hd.2
    have hsub : c.toNat - 48 < 10 := by omega
    simpa [hd] using hsub
  all_goals simp [hd]

theorem IsNumeral.exists_isDigit (h : IsNumeral base cs n) : ∀ c ∈ cs, ∃ d, IsDigit base c d := by
  obtain ⟨-, ds, hds, -⟩ := h
  induction hds with
  | nil => simp
  | cons hd _ ih => exact List.forall_mem_cons.2 ⟨⟨_, hd⟩, ih⟩

theorem IsNumeral.isDigit (h : IsNumeral 10 cs n) : ∀ c ∈ cs, c.isDigit = true :=
  fun c hc => isDigit_iff.2 (h.exists_isDigit c hc)

theorem register?_eq_some_iff : Scope.register? cs = some n ↔ IsRegister cs n := by
  rcases cs with _ | ⟨sign, digits⟩
  · simp [Scope.register?, IsRegister]
  · by_cases hs : sign = 'R' ∨ sign = 'r' ∨ sign = '$'
    · rw [Scope.register?, if_pos hs, numeral?_eq_some_iff (by decide)]
      simp [IsRegister, hs]
    · rw [Scope.register?, if_neg hs]
      simp [IsRegister, hs]

/-- The sign of another base is not a decimal digit, and so tells the three forms apart. -/
theorem literal?_eq_some_iff : literal? cs = some n ↔ IsLiteral cs n ∧ n < Word.limit := by
  constructor
  · intro h
    rw [literal?.eq_def] at h
    split at h
    · split_ifs at h with hx hb
      · exact ((numeral?_eq_some_iff (by decide)).1 h).imp_left (.hexadecimal hx)
      · exact ((numeral?_eq_some_iff (by decide)).1 h).imp_left (.binary hb)
      · exact ((numeral?_eq_some_iff (by decide)).1 h).imp_left .decimal
    · exact ((numeral?_eq_some_iff (by decide)).1 h).imp_left .decimal
  · rintro ⟨h, hn⟩
    cases h with
    | hexadecimal hx h =>
      rw [literal?, if_pos hx]
      exact (numeral?_eq_some_iff (by decide)).2 ⟨h, hn⟩
    | binary hb h =>
      rw [literal?, if_neg (by rcases hb with rfl | rfl <;> decide), if_pos hb]
      exact (numeral?_eq_some_iff (by decide)).2 ⟨h, hn⟩
    | decimal h =>
      rw [literal?_of_forall_isDigit h.isDigit]
      exact (numeral?_eq_some_iff (by decide)).2 ⟨h, hn⟩

/-- What has the form of a literal begins with a digit. -/
theorem IsLiteral.exists_isDigit (h : IsLiteral cs n) : ∃ c ∈ cs.head?, c.isDigit = true := by
  cases h with
  | hexadecimal => exact ⟨'0', rfl, rfl⟩
  | binary => exact ⟨'0', rfl, rfl⟩
  | decimal h =>
    obtain ⟨c, cs, rfl⟩ := List.exists_cons_of_ne_nil h.1
    exact ⟨c, rfl, h.isDigit c List.mem_cons_self⟩

/-! ## Readers -/

/-- What a reader finds at the beginning of a text and what comes after it, or nothing if it
    fails. -/
def Reader (α : Type) : Type := List Char → Option (α × List Char)

/-- A part at the beginning of a text is the longest one, and not empty, of characters with a
    property. -/
def Longest (p : Char → Prop) (input part rest : List Char) : Prop :=
  input = part ++ rest ∧ part ≠ [] ∧ (∀ c ∈ part, p c) ∧ ∀ c ∈ rest.head?, ¬p c

/-- A letter or digit of base 16. -/
def IsHexDigit (c : Char) : Prop :=
  '0' ≤ c ∧ c ≤ '9' ∨ 'a' ≤ c ∧ c ≤ 'f' ∨ 'A' ≤ c ∧ c ≤ 'F'

instance (c : Char) : Decidable (IsHexDigit c) := by
  unfold IsHexDigit
  infer_instance

/-- The combinators that the readers of operands are put together from. -/
structure Readers where
  /-- One of these characters. -/
  oneOf : List Char → Reader Char
  /-- These characters, where capitals do not matter. -/
  tagNoCase : List Char → Reader (List Char)
  /-- All characters with a property, and at least one. -/
  takeWhile1 : (Char → Bool) → Reader (List Char)
  /-- All decimal digits, and at least one. -/
  digit1 : Reader (List Char)
  /-- All hexadecimal digits, and at least one. -/
  hexDigit1 : Reader (List Char)
  /-- One reader after the other, where what the first has found is dropped. -/
  preceded {α : Type} : Reader α → Reader (List Char) → Reader (List Char)
  /-- What a reader finds, converted. -/
  mapRes : Reader (List Char) → (List Char → Option Nat) → Reader Nat
  /-- The first of several readers that does not fail. -/
  alt : List (Reader Nat) → Reader Nat
  /-- A reader that fails if it leaves anything. -/
  allConsuming : Reader Nat → Reader Nat

namespace Readers

/-- The combinators do what is documented of them. -/
structure Documented (r : Readers) : Prop where
  oneOf : ∀ signs input c rest,
    r.oneOf signs input = some (c, rest) ↔ c ∈ signs ∧ input = c :: rest
  /-- Nothing is said of other tags. -/
  tagNoCase : ∀ letter ∈ ['x', 'b'], ∀ input part rest,
    r.tagNoCase ['0', letter] input = some (part, rest) ↔
      ∃ sign, (sign = letter ∨ sign = letter.toUpper) ∧ part = ['0', sign] ∧ input = part ++ rest
  takeWhile1 : ∀ p input part rest,
    r.takeWhile1 p input = some (part, rest) ↔ Longest (fun c => p c = true) input part rest
  digit1 : ∀ input part rest,
    r.digit1 input = some (part, rest) ↔ Longest (fun c => '0' ≤ c ∧ c ≤ '9') input part rest
  hexDigit1 : ∀ input part rest,
    r.hexDigit1 input = some (part, rest) ↔ Longest IsHexDigit input part rest
  preceded : ∀ {α : Type} (first : Reader α) (second : Reader (List Char)) input part rest,
    r.preceded first second input = some (part, rest) ↔
      ∃ a mid, first input = some (a, mid) ∧ second mid = some (part, rest)
  mapRes : ∀ reader convert input n rest,
    r.mapRes reader convert input = some (n, rest) ↔
      ∃ part, reader input = some (part, rest) ∧ convert part = some n
  alt : ∀ readers input, r.alt readers input = readers.findSome? fun reader => reader input
  allConsuming : ∀ reader input n rest,
    r.allConsuming reader input = some (n, rest) ↔ reader input = some (n, []) ∧ rest = []

variable (r : Readers)

/-- A sign and the index of a register. -/
def register : Reader Nat :=
  r.mapRes (r.preceded (r.oneOf ['R', 'r', '$']) r.digit1) (numeral? 10)

def hexadecimal : Reader Nat :=
  r.mapRes (r.preceded (r.tagNoCase ['0', 'x']) r.hexDigit1) (numeral? 16)

def binary : Reader Nat :=
  r.mapRes (r.preceded (r.tagNoCase ['0', 'b']) (r.takeWhile1 fun c => c == '0' || c == '1'))
    (numeral? 2)

def decimal : Reader Nat := r.mapRes r.digit1 (numeral? 10)

/-- A literal that is all of a text. -/
def literal : Reader Nat := r.allConsuming (r.alt [r.hexadecimal, r.binary, r.decimal])

variable {r : Readers} {reader : Reader (List Char)} {p : Char → Prop} {x : Nat × List Char}

/-- A reader of all digits leaves nothing exactly if the text is a numeral. -/
theorem Documented.mapRes_eq_some_iff (hr : r.Documented) (hb : base ≤ 16)
    (hp : ∀ c, p c ↔ ∃ d, IsDigit base c d)
    (hreader : ∀ input part rest, reader input = some (part, rest) ↔ Longest p input part rest) :
    r.mapRes reader (numeral? base) cs = some (n, []) ↔ IsNumeral base cs n ∧ n < Word.limit := by
  rw [hr.mapRes, ← numeral?_eq_some_iff hb]
  constructor
  · rintro ⟨part, hpart, hn⟩
    obtain ⟨rfl, -⟩ := (hreader _ _ _).1 hpart
    rwa [List.append_nil]
  · intro hn
    have hcs := ((numeral?_eq_some_iff hb).1 hn).1
    refine ⟨cs, (hreader _ _ _).2 ⟨(List.append_nil cs).symm, hcs.1, ?_, by simp⟩, hn⟩
    exact fun c hc => (hp c).2 (hcs.exists_isDigit c hc)

/-- What is converted is found after what precedes it. -/
theorem Documented.mapRes_preceded (hr : r.Documented) {α : Type} {first : Reader α}
    {convert : List Char → Option Nat} :
    r.mapRes (r.preceded first reader) convert cs = some x ↔
      ∃ a mid, first cs = some (a, mid) ∧ r.mapRes reader convert mid = some x := by
  obtain ⟨m, rest⟩ := x
  simp only [hr.mapRes, hr.preceded]
  constructor
  · rintro ⟨part, ⟨a, mid, ha, hpart⟩, hm⟩
    exact ⟨a, mid, ha, part, hpart, hm⟩
  · rintro ⟨a, mid, ha, part, hpart, hm⟩
    exact ⟨part, ⟨a, mid, ha, hpart⟩, hm⟩

theorem isHexDigit_iff : IsHexDigit c ↔ ∃ d, IsDigit 16 c d := by
  simp only [← digit?_eq_some_iff, IsHexDigit, digit?]
  split_ifs <;> simp [*]

theorem isBit_iff : (c == '0' || c == '1') = true ↔ ∃ d, IsDigit 2 c d := by
  rw [Bool.or_eq_true, beq_iff_eq, beq_iff_eq]
  constructor
  · rintro (rfl | rfl)
    · exact ⟨0, by decide, .inl rfl⟩
    · exact ⟨1, by decide, .inl rfl⟩
  · have hbits : ∀ d < 2, (d.digitChar = '0' ∨ d.digitChar = '1') ∧
        d.digitChar.toUpper = d.digitChar := by decide
    rintro ⟨d, hd, rfl | rfl⟩
    · exact (hbits d hd).1
    · rw [(hbits d hd).2]
      exact (hbits d hd).1

theorem Documented.decimal_eq_some_iff (hr : r.Documented) :
    r.decimal cs = some (n, []) ↔ IsNumeral 10 cs n ∧ n < Word.limit :=
  hr.mapRes_eq_some_iff (by decide)
    (fun c => by rw [← isDigit_iff, isDigit_eq_decide, decide_eq_true_iff]) hr.digit1

/-- A reader of digits after the tag of their base. -/
theorem Documented.tagged_eq_some_iff (hr : r.Documented) {letter : Char}
    (hletter : letter ∈ ['x', 'b']) {convert : List Char → Option Nat} :
    r.mapRes (r.preceded (r.tagNoCase ['0', letter]) reader) convert cs = some x ↔
      ∃ sign digits, cs = '0' :: sign :: digits ∧ (sign = letter ∨ sign = letter.toUpper) ∧
        r.mapRes reader convert digits = some x := by
  simp only [hr.mapRes_preceded, hr.tagNoCase letter hletter]
  constructor
  · rintro ⟨_, digits, ⟨sign, hsign, rfl, rfl⟩, hx⟩
    exact ⟨sign, digits, rfl, hsign, hx⟩
  · rintro ⟨sign, digits, rfl, hsign, hx⟩
    exact ⟨_, digits, ⟨sign, hsign, rfl, rfl⟩, hx⟩

theorem Documented.tagged_eq_none (hr : r.Documented) {letter : Char}
    (hletter : letter ∈ ['x', 'b']) {convert : List Char → Option Nat}
    (hsign : ∀ sign digits, cs = '0' :: sign :: digits → sign ≠ letter ∧ sign ≠ letter.toUpper) :
    r.mapRes (r.preceded (r.tagNoCase ['0', letter]) reader) convert cs = none := by
  refine Option.eq_none_iff_forall_ne_some.2 fun x hx => ?_
  obtain ⟨sign, digits, hcs, hs, -⟩ := (hr.tagged_eq_some_iff hletter).1 hx
  exact hs.elim (hsign sign digits hcs).1 (hsign sign digits hcs).2

theorem Documented.hexadecimal_eq_some_iff (hr : r.Documented) :
    r.hexadecimal cs = some (n, []) ↔
      ∃ sign digits, cs = '0' :: sign :: digits ∧ (sign = 'x' ∨ sign = 'X') ∧
        IsNumeral 16 digits n ∧ n < Word.limit := by
  simp only [hexadecimal, hr.tagged_eq_some_iff (show 'x' ∈ ['x', 'b'] by simp),
    hr.mapRes_eq_some_iff (show 16 ≤ 16 by decide) (fun _ => isHexDigit_iff) hr.hexDigit1]
  rfl

theorem Documented.binary_eq_some_iff (hr : r.Documented) :
    r.binary cs = some (n, []) ↔
      ∃ sign digits, cs = '0' :: sign :: digits ∧ (sign = 'b' ∨ sign = 'B') ∧
        IsNumeral 2 digits n ∧ n < Word.limit := by
  simp only [binary, hr.tagged_eq_some_iff (show 'b' ∈ ['x', 'b'] by simp),
    hr.mapRes_eq_some_iff (show 2 ≤ 16 by decide) (fun _ => isBit_iff) (hr.takeWhile1 _)]
  rfl

/-- The first alternative that succeeds is the only one that can read all of a text, whatever the
    others find at its beginning. -/
theorem Documented.alt_eq_some_iff (hr : r.Documented) :
    r.alt [r.hexadecimal, r.binary, r.decimal] cs = some (n, []) ↔
      IsLiteral cs n ∧ n < Word.limit := by
  rw [hr.alt]
  constructor
  · intro h
    obtain ⟨reader, hreader, hread⟩ := List.exists_of_findSome?_eq_some h
    simp only [List.mem_cons, List.not_mem_nil, or_false] at hreader
    obtain rfl | rfl | rfl := hreader
    · obtain ⟨sign, digits, rfl, hsign, hnum, hn⟩ := hr.hexadecimal_eq_some_iff.1 hread
      exact ⟨.hexadecimal hsign hnum, hn⟩
    · obtain ⟨sign, digits, rfl, hsign, hnum, hn⟩ := hr.binary_eq_some_iff.1 hread
      exact ⟨.binary hsign hnum, hn⟩
    · exact (hr.decimal_eq_some_iff.1 hread).imp_left .decimal
  · rintro ⟨h, hn⟩
    -- the readers before the one that fits find nothing at all, not even at the beginning
    simp only [List.findSome?_cons, List.findSome?_nil]
    cases h with
    | hexadecimal hsign hnum =>
      rw [hr.hexadecimal_eq_some_iff.2 ⟨_, _, rfl, hsign, hnum, hn⟩]
    | @binary sign digits _ hsign hnum =>
      have hhex : r.hexadecimal ('0' :: sign :: digits) = none := by
        refine hr.tagged_eq_none (by simp) fun sign' _ he => ?_
        obtain rfl := (List.cons.inj (List.cons.inj he).2).1
        rcases hsign with rfl | rfl <;> decide
      rw [hhex, hr.binary_eq_some_iff.2 ⟨_, _, rfl, hsign, hnum, hn⟩]
    | decimal hnum =>
      have htagged {letter : Char} (hletter : letter ∈ ['x', 'b']) {reader : Reader (List Char)}
          {convert : List Char → Option Nat} :
          r.mapRes (r.preceded (r.tagNoCase ['0', letter]) reader) convert cs = none := by
        refine hr.tagged_eq_none hletter fun sign digits hcs => ?_
        have hdigit : sign.isDigit = true := hnum.isDigit sign (by simp [hcs])
        obtain rfl | rfl : letter = 'x' ∨ letter = 'b' := by simpa using hletter
        all_goals constructor <;> rintro rfl <;> exact absurd hdigit (by decide)
      rw [hexadecimal, binary, htagged (by simp), htagged (by simp),
        hr.decimal_eq_some_iff.2 ⟨hnum, hn⟩]

/-- What is left of a reader that has to read all of a text is its value. -/
theorem Documented.map_allConsuming (hr : r.Documented) {reader : Reader Nat} :
    (r.allConsuming reader cs).map Prod.fst = some n ↔ reader cs = some (n, []) := by
  rw [Option.map_eq_some_iff]
  constructor
  · rintro ⟨⟨m, rest⟩, h, rfl⟩
    exact ((hr.allConsuming _ _ _ _).1 h).1
  · exact fun h => ⟨(n, []), (hr.allConsuming _ _ _ _).2 ⟨h, rfl⟩, rfl⟩

theorem Documented.register_eq_some_iff (hr : r.Documented) :
    r.register cs = some (n, []) ↔ IsRegister cs n := by
  rw [register, hr.mapRes_preceded]
  constructor
  · rintro ⟨sign, digits, hsign, hn⟩
    obtain ⟨hs, rfl⟩ := (hr.oneOf _ _ _ _).1 hsign
    obtain ⟨hnum, hn⟩ := hr.decimal_eq_some_iff.1 hn
    exact ⟨sign, digits, rfl, hs, hnum, hn⟩
  · rintro ⟨sign, digits, rfl, hs, hnum, hn⟩
    exact ⟨sign, digits, (hr.oneOf _ _ _ _).2 ⟨hs, rfl⟩, hr.decimal_eq_some_iff.2 ⟨hnum, hn⟩⟩

theorem Documented.allConsuming_register (hr : r.Documented) (cs : List Char) :
    (r.allConsuming r.register cs).map Prod.fst = Scope.register? cs :=
  Option.ext fun n => by
    rw [hr.map_allConsuming, hr.register_eq_some_iff, register?_eq_some_iff]

theorem Documented.literal_eq (hr : r.Documented) (cs : List Char) :
    (r.literal cs).map Prod.fst = literal? cs :=
  Option.ext fun n => by
    rw [literal, hr.map_allConsuming, hr.alt_eq_some_iff, literal?_eq_some_iff]

/-! ## Combinators as documented -/

/-- The longest part whose characters have a property. -/
def longest (p : Char → Bool) : Reader (List Char) := fun input =>
  if (input.takeWhile p).isEmpty then none else some (input.takeWhile p, input.dropWhile p)

/-- Combinators that do no more than what is documented. -/
def standard : Readers where
  oneOf signs
    | c :: rest => if c ∈ signs then some (c, rest) else none
    | [] => none
  tagNoCase tag input :=
    let part := input.take tag.length
    if part.map Char.toLower = tag.map Char.toLower then some (part, input.drop tag.length)
    else none
  takeWhile1 := longest
  digit1 := longest Char.isDigit
  hexDigit1 := longest fun c => IsHexDigit c
  preceded first second input := (first input).bind fun found => second found.2
  mapRes reader convert input :=
    (reader input).bind fun found => (convert found.1).map fun n => (n, found.2)
  alt readers input := readers.findSome? fun reader => reader input
  allConsuming reader input := (reader input).filter (·.2.isEmpty)

/-- The longest part of characters that satisfy a test is taken. -/
theorem longest_eq_some_iff {p : Char → Bool} {input part rest : List Char} :
    longest p input = some (part, rest) ↔ Longest (fun c => p c = true) input part rest := by
  constructor
  · intro h
    rw [longest] at h
    split at h
    · cases h
    · next hn =>
      cases h
      refine ⟨List.takeWhile_append_dropWhile.symm, by simpa using hn,
        fun c hc => List.mem_takeWhile_imp hc, fun c hc hp => ?_⟩
      have hnot := List.head?_dropWhile_not p input
      rw [Option.mem_def.1 hc] at hnot
      simp [hp] at hnot
  · rintro ⟨rfl, hn, hpart, hrest⟩
    have hstop : rest.takeWhile p = [] ∧ rest.dropWhile p = rest := by
      rcases rest with _ | ⟨c, rest⟩
      · exact ⟨rfl, rfl⟩
      · simp [hrest c rfl]
    rw [longest, List.takeWhile_append_of_pos hpart, List.dropWhile_append_of_pos hpart, hstop.1,
      hstop.2, List.append_nil, if_neg (by simpa using hn)]

/-- A character is the capital or the small form of a letter if its small form is the letter. -/
theorem toLower_eq_iff {letter : Char} (h : letter = '0' ∨ letter = 'x' ∨ letter = 'b') :
    c.toLower = letter ↔ c = letter ∨ c = letter.toUpper := by
  have hascii : ∀ n < 128, ((Char.ofNat n).toLower = letter ↔
      Char.ofNat n = letter ∨ Char.ofNat n = letter.toUpper) := by
    rcases h with rfl | rfl | rfl <;> decide +kernel
  have hletter : letter.toNat < 128 ∧ letter.toUpper.toNat < 128 := by
    rcases h with rfl | rfl | rfl <;> decide
  by_cases hc : c.toNat < 128
  · rw [← Char.ofNat_toNat c]
    exact hascii _ hc
  · have hlower : c.toLower = c :=
      dif_neg fun hupper => hc (Nat.lt_of_le_of_lt hupper.2 (by decide))
    have hne (l : Char) (hl : l.toNat < 128) : c ≠ l := by
      rintro rfl
      exact hc hl
    rw [hlower]
    simp [hne _ hletter.1, hne _ hletter.2]

/-- The sign of a base is read in capitals and in small letters. -/
theorem standard_tagNoCase {letter : Char} (h : letter ∈ ['x', 'b']) {input part rest : List Char} :
    standard.tagNoCase ['0', letter] input = some (part, rest) ↔
      ∃ sign, (sign = letter ∨ sign = letter.toUpper) ∧ part = ['0', sign] ∧
        input = part ++ rest := by
  replace h : letter = 'x' ∨ letter = 'b' := by simpa using h
  have hletter : letter.toLower = letter := by rcases h with rfl | rfl <;> decide
  have htag : standard.tagNoCase ['0', letter] input =
      if (input.take 2).map Char.toLower = ['0', letter] then some (input.take 2, input.drop 2)
      else none := by
    conv_rhs => rw [← hletter]
    rfl
  have hsign (c : Char) := toLower_eq_iff (c := c) (.inr h)
  rw [htag]
  constructor
  · intro hread
    split at hread
    · next hlower =>
      rcases input with _ | ⟨zero, _ | ⟨sign, input⟩⟩
      · simp at hlower
      · simp at hlower
      · simp only [List.take_succ_cons, List.take_zero, List.map_cons, List.map_nil,
          List.cons.injEq, and_true] at hlower
        obtain rfl : zero = '0' := ((toLower_eq_iff (.inl rfl)).1 hlower.1).elim id id
        cases hread
        exact ⟨sign, (hsign sign).1 hlower.2, rfl, rfl⟩
    · cases hread
  · rintro ⟨sign, hs, rfl, rfl⟩
    exact if_pos (by rw [← (hsign sign).2 hs]; rfl)

/-- The readers that run here are as they are documented. -/
theorem standard_documented : standard.Documented where
  oneOf signs input c rest := by
    rcases input with _ | ⟨first, input⟩
    · simp [standard]
    · by_cases hfirst : first ∈ signs
      · simp only [standard, if_pos hfirst, Option.some.injEq, Prod.mk.injEq, List.cons.injEq]
        exact ⟨fun h => ⟨h.1 ▸ hfirst, h⟩, And.right⟩
      · simp only [standard, if_neg hfirst, List.cons.injEq, reduceCtorEq, false_iff]
        exact fun h => hfirst (h.2.1 ▸ h.1)
  tagNoCase letter hletter input part rest := standard_tagNoCase hletter
  takeWhile1 p input part rest := longest_eq_some_iff
  digit1 input part rest := by
    rw [show standard.digit1 = longest Char.isDigit from rfl, longest_eq_some_iff]
    simp only [isDigit_eq_decide, decide_eq_true_iff]
  hexDigit1 input part rest := by
    rw [show standard.hexDigit1 = longest fun c => IsHexDigit c from rfl, longest_eq_some_iff]
    simp only [decide_eq_true_iff]
  preceded first second input part rest := by simp [standard, Option.bind_eq_some_iff]
  mapRes reader convert input n rest := by simp [standard, Option.bind_eq_some_iff]
  alt readers input := rfl
  allConsuming reader input n rest := by
    simp only [standard, Option.filter_eq_some_iff, List.isEmpty_iff]
    exact and_congr_left fun h => by rw [h]

end Readers
end Text

namespace Scope

variable {scope : Scope} {token : String} {index n : Nat} {r : Text.Readers}

/-! ## Operands as they are read -/

/-- The value of a token, by these readers. -/
def valueBy (r : Text.Readers) (scope : Scope) (token : String) : Except LineError Nat :=
  match r.literal token.toList with
  | some (value, _) => .ok value
  | none =>
    if Text.startsWithDigit token.toList then .error (.malformedLiteral token)
    else
      match scope.values.lookup token with
      | some value => .ok value
      | none => .error (.unknownOperand token)

/-- What a token stands for as an operand, by these readers. -/
def operandBy (r : Text.Readers) (scope : Scope) (token : String) : Except LineError Operand :=
  match token.toList with
  | '.' :: name =>
    match scope.labels.lookup (String.ofList name) with
    | some label => .ok (.label label)
    | none => .error (.undefinedLabel (String.ofList name))
  | cs =>
    match r.allConsuming r.register cs with
    | some (index, _) => .ok (.register index)
    | none => (scope.valueBy r token).map .immediate

theorem valueBy_eq (hr : r.Documented) : scope.valueBy r token = scope.value token := by
  rw [valueBy, value, ← hr.literal_eq]
  rcases r.literal token.toList with _ | ⟨value, rest⟩ <;> rfl

theorem operand_of_dot {name : List Char} (h : token.toList = '.' :: name) :
    scope.operand token =
      match scope.labels.lookup (String.ofList name) with
      | some label => .ok (.label label)
      | none => .error (.undefinedLabel (String.ofList name)) := by
  rw [operand.eq_def, h]
  rfl

theorem operand_of_head?_ne (h : token.toList.head? ≠ some '.') :
    scope.operand token =
      match register? token.toList with
      | some index => .ok (.register index)
      | none => (scope.value token).map .immediate := by
  rw [operand.eq_def]
  split
  · next name ht => exact absurd (List.head?_eq_some_iff.2 ⟨name, ht⟩) h
  · rfl

theorem operandBy_eq (hr : r.Documented) : scope.operandBy r token = scope.operand token := by
  rw [operandBy.eq_def]
  split
  · next name ht => rw [operand_of_dot ht]
  · next hne =>
    have hhead : token.toList.head? ≠ some '.' := fun h =>
      (List.head?_eq_some_iff.1 h).elim fun name ht => hne name ht
    rw [operand_of_head?_ne hhead, ← hr.allConsuming_register, valueBy_eq hr]
    rcases r.allConsuming r.register token.toList with _ | ⟨index, rest⟩ <;> rfl

/-! ## The forms of operands -/

/-- A token is neither a label nor a register, and no digit begins it. -/
structure IsName (token : String) : Prop where
  not_label : ∀ name, token ≠ "." ++ name
  not_register : ∀ index, ¬Text.IsRegister token.toList index
  not_digit : ¬∃ c ∈ token.toList.head?, c.isDigit = true

/-- What a token stands for as an operand, by its form. -/
inductive Reads (scope : Scope) (token : String) : Except LineError Operand → Prop
  | label {name : String} {label : Label} : token = "." ++ name →
      scope.labels.lookup name = some label → Reads scope token (.ok (.label label))
  | undefinedLabel {name : String} : token = "." ++ name → scope.labels.lookup name = none →
      Reads scope token (.error (.undefinedLabel name))
  | register {index : Nat} : Text.IsRegister token.toList index →
      Reads scope token (.ok (.register index))
  | immediate {value : Nat} : Text.IsLiteral token.toList value → value < Word.limit →
      Reads scope token (.ok (.immediate value))
  | malformed : (∃ c ∈ token.toList.head?, c.isDigit = true) →
      (∀ value < Word.limit, ¬Text.IsLiteral token.toList value) →
      Reads scope token (.error (.malformedLiteral token))
  | value {value : Nat} : IsName token → scope.values.lookup token = some value →
      Reads scope token (.ok (.immediate value))
  | unknown : IsName token → scope.values.lookup token = none →
      Reads scope token (.error (.unknownOperand token))

/-- Every token has one of the forms. -/
theorem exists_reads (scope : Scope) (token : String) : ∃ result, scope.Reads token result := by
  by_cases hlabel : ∃ name, token = "." ++ name
  · obtain ⟨name, ht⟩ := hlabel
    rcases hl : scope.labels.lookup name with _ | label
    · exact ⟨_, .undefinedLabel ht hl⟩
    · exact ⟨_, .label ht hl⟩
  by_cases hregister : ∃ index, Text.IsRegister token.toList index
  · exact hregister.elim fun index h => ⟨_, .register h⟩
  by_cases hdigit : ∃ c ∈ token.toList.head?, c.isDigit = true
  · by_cases hliteral : ∃ value < Word.limit, Text.IsLiteral token.toList value
    · exact hliteral.elim fun value h => ⟨_, .immediate h.2 h.1⟩
    · exact ⟨_, .malformed hdigit fun value hvalue h => hliteral ⟨value, hvalue, h⟩⟩
  · have hname : IsName token := ⟨not_exists.1 hlabel, not_exists.1 hregister, hdigit⟩
    rcases hv : scope.values.lookup token with _ | value
    · exact ⟨_, .unknown hname hv⟩
    · exact ⟨_, .value hname hv⟩

theorem eq_dot_append_iff {name : String} :
    token = "." ++ name ↔ token.toList = '.' :: name.toList := by
  rw [← String.toList_inj, String.toList_append]
  rfl

/-- What begins with a digit is neither a label nor a register. -/
theorem operand_of_digit (h : ∃ c ∈ token.toList.head?, c.isDigit = true) :
    scope.operand token = (scope.value token).map .immediate := by
  obtain ⟨c, hc, hdigit⟩ := h
  have hregister : register? token.toList = none := by
    refine Option.eq_none_iff_forall_ne_some.2 fun index hindex => ?_
    obtain ⟨sign, digits, ht, hsign, -⟩ := Text.register?_eq_some_iff.1 hindex
    rw [ht, List.head?_cons, Option.mem_some_iff] at hc
    rw [← hc] at hdigit
    obtain rfl | rfl | rfl : sign = 'R' ∨ sign = 'r' ∨ sign = '$' := by simpa using hsign
    all_goals exact absurd hdigit (by decide)
  rw [operand_of_head?_ne, hregister]
  intro hdot
  rw [Option.mem_unique hc hdot] at hdigit
  cases hdigit

/-- A name that is neither a label nor a register is the value that it was given. -/
theorem operand_of_isName (h : IsName token) :
    scope.operand token =
      match scope.values.lookup token with
      | some value => .ok (.immediate value)
      | none => .error (.unknownOperand token) := by
  have hdot : token.toList.head? ≠ some '.' := fun hdot => by
    obtain ⟨name, ht⟩ := List.head?_eq_some_iff.1 hdot
    exact h.not_label (String.ofList name) (eq_dot_append_iff.2 (by rw [ht, String.toList_ofList]))
  have hregister : register? token.toList = none :=
    Option.eq_none_iff_forall_ne_some.2 fun index hindex =>
      h.not_register index (Text.register?_eq_some_iff.1 hindex)
  have hliteral : Text.literal? token.toList = none :=
    Option.eq_none_iff_forall_ne_some.2 fun value hvalue =>
      h.not_digit (Text.literal?_eq_some_iff.1 hvalue).1.exists_isDigit
  have hdigit : Text.startsWithDigit token.toList = false := by
    rw [← Bool.not_eq_true, Text.startsWithDigit_iff]
    exact h.not_digit
  rw [operand_of_head?_ne hdot, hregister, value, hliteral, hdigit]
  rcases scope.values.lookup token with _ | value <;> rfl

/-- No token has two forms. -/
theorem Reads.operand_eq {result : Except LineError Operand} (h : scope.Reads token result) :
    scope.operand token = result := by
  cases h with
  | label ht hl => rw [operand_of_dot (eq_dot_append_iff.1 ht), String.ofList_toList, hl]
  | undefinedLabel ht hl => rw [operand_of_dot (eq_dot_append_iff.1 ht), String.ofList_toList, hl]
  | register h =>
    rw [operand_of_head?_ne, Text.register?_eq_some_iff.2 h]
    obtain ⟨sign, digits, ht, hsign, -⟩ := h
    rintro hdot
    rw [ht, List.head?_cons, Option.some.injEq] at hdot
    rw [hdot] at hsign
    revert hsign
    decide
  | immediate h hn =>
    rw [operand_of_digit h.exists_isDigit, Scope.value, Text.literal?_eq_some_iff.2 ⟨h, hn⟩]
    rfl
  | malformed hdigit h =>
    have hliteral : Text.literal? token.toList = none :=
      Option.eq_none_iff_forall_ne_some.2 fun value hvalue =>
        h value (Text.literal?_eq_some_iff.1 hvalue).2 (Text.literal?_eq_some_iff.1 hvalue).1
    rw [operand_of_digit hdigit, Scope.value, hliteral, if_pos (Text.startsWithDigit_iff.2 hdigit)]
    rfl
  | value hname hv => rw [operand_of_isName hname, hv]
  | unknown hname hv => rw [operand_of_isName hname, hv]

theorem operand_render_of_lt (h : n < Word.limit) :
    scope.operand (Operand.register n).render = .ok (.register n) ∧
      scope.operand (Operand.immediate n).render = .ok (.immediate n) := by
  constructor
  · exact operand_render (by rintro _ ⟨⟩; exact h) (by rintro _ ⟨⟩) (by rintro _ ⟨⟩)
  · exact operand_repr h

/-- Readers that are put together from documented combinators find what a token stands for as an
    operand, and that is what its form says. So registers and immediate values are read from what is
    written for them. -/
theorem operand_eq_iff_reads (hr : r.Documented) (scope : Scope) :
    (∀ token, scope.operandBy r token = scope.operand token) ∧
    (∀ token result, scope.operand token = result ↔ scope.Reads token result) ∧
    ∀ n < Word.limit,
      scope.operand (Operand.register n).render = .ok (.register n) ∧
      scope.operand (Operand.immediate n).render = .ok (.immediate n) := by
  refine ⟨fun token => operandBy_eq hr, fun token result => ⟨?_, Reads.operand_eq⟩,
    fun n hn => operand_render_of_lt hn⟩
  rintro rfl
  obtain ⟨result, h⟩ := exists_reads scope token
  rwa [h.operand_eq]

/-- A register whose index does not fit is the name of a value, and a numeral that does not fit is
    none, although it begins with one. -/
theorem operand_eq_iff_reads_overflowing :
    Text.Readers.standard.Documented ∧
    let scope : Scope := { values := [("r18446744073709551616", 7)] }
    scope.operandBy .standard "r18446744073709551615" = .ok (.register 18446744073709551615) ∧
      scope.Reads "r18446744073709551616" (.ok (.immediate 7)) ∧
      scope.Reads "0x10000000000000000" (.error (.malformedLiteral "0x10000000000000000")) := by
  have hr := Text.Readers.standard_documented
  have h := operand_eq_iff_reads hr { values := [("r18446744073709551616", 7)] }
  refine ⟨hr, (h.1 _).trans ?_, (h.2.1 _ _).1 ?_, (h.2.1 _ _).1 ?_⟩ <;> decide +kernel

end Scope
end Wordcode
