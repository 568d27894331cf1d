import Wordcode.Text.CharClass

/-!
# Clusters

Characters next to each other can share their columns: an emoji that is joined from several
takes two columns however many characters it is written with, and a lam with the alef after it
takes one. So the columns of a text are no sum over its characters. A text is measured from its
end: what a character adds depends on the character and on what follows it.

* `Text.alone`: the columns that a character takes by itself;
* `Text.Letter.before`, `Text.Following.before`: how a character joins with what follows it;
* `Text.columns`: the columns of a text.
-/

namespace Wordcode.Text

open CharClass

/-- Letters that can share a column with letters before them. Some do so only when a joiner
    stands before them. -/
inductive Letter where
  /-- The Arabic alef, which a lam before it takes in. -/
  | alef
  /-- The Hebrew lamed, which a joined alef takes in. -/
  | lamed (joined : Bool)
  /-- A Khmer letter, which a sign before it puts below the line. -/
  | khmer
  /-- The Buginese ya, which a joined a with the vowel i takes in. -/
  | ya (joined : Bool)
  /-- The Buginese vowel i with a joined ya after it. -/
  | vowelYa
  /-- A Tifinagh consonant, which a joined consonant takes in. -/
  | tifinagh (joined : Bool)
  /-- A Tifinagh consonant with the sign before it that joins consonants. -/
  | tifinaghTied
  /-- A Lisu tone that can end a pair. -/
  | lisuTone
  /-- The Old Turkic i, which a joined letter takes in. -/
  | orkhonI (joined : Bool)
  deriving DecidableEq, Repr

/-- What the text to the right of a character begins with. -/
inductive Following where
  /-- Nothing that joins with what stands before it. -/
  | other
  | newline
  | letter (l : Letter)
  | emoji
  /-- A colour of skin. -/
  | modifier
  /-- A regional indicator, or a row of several. -/
  | indicators (several : Bool)
  /-- An emoji with a joiner before it. -/
  | joinedEmoji
  /-- A keycap that is joined to an emoji. -/
  | joinedKeycap
  /-- One regional indicator that is joined to an emoji. -/
  | joinedIndicator
  /-- A row of regional indicators that is joined to an emoji. -/
  | joinedIndicators (even : Bool)
  /-- The end of the name of a region that is joined to an emoji, with its last letters. -/
  | tagLetters (count : Nat)
  /-- The digits of the name of a region that is joined to an emoji. -/
  | tagDigits (count : Nat)
  deriving DecidableEq, Repr

/-- The form that a variation selector asks of the character before it. -/
inductive Form where
  | emoji
  | text
  deriving DecidableEq, Repr

/-- What a character has on its right: the text that follows, and the selector between the two
    if there is one. -/
structure Context where
  following : Following := .other
  form : Option Form := none
  deriving DecidableEq, Repr

/-- The joiner makes one cluster of the characters around it. -/
def joiner : Char := '\u200d'

namespace Letter

/-- The letter that a character is, if it can share a column with letters before it. -/
def of? (c : Char) : Option Letter :=
  if alefs.has c then some .alef
  else if c = '\u05dc' then some (.lamed false)
  else if khmerLetters.has c then some .khmer
  else if c = '\u1a10' then some (.ya false)
  else if tifinaghLetters.has c then some (.tifinagh false)
  else if lisuClosingTones.has c then some .lisuTone
  else if c.toNat = 0x10C03 then some (.orkhonI false)
  else none

/-- The letter with a joiner before it. -/
def join : Letter → Letter
  | .lamed _ => .lamed true
  | .ya _ => .ya true
  | .tifinagh _ => .tifinagh true
  | .orkhonI _ => .orkhonI true
  | l => l

/-- What a character adds before a letter that it joins with, and what the two are together.
    A letter below the line gives its column back. -/
def before (c : Char) : Letter → Option (Int × Following)
  | .alef =>
    if lams.has c then some (0, .other)
    else if zeroWidth.has c && !nonTransparent.has c then some (0, .letter .alef)
    else none
  | l =>
    if c = joiner then some (0, .letter l.join)
    else if ligatureIgnorable.has c then some (0, .letter l)
    else match l with
      | .lamed true => if c = '\u05d0' then some (0, .other) else none
      | .khmer => if c = '\u17d2' then some (-1, .other) else none
      | .ya true => if c = '\u1a17' then some (0, .letter .vowelYa) else none
      | .vowelYa => if c = '\u1a15' then some (0, .other) else none
      | .tifinagh joined =>
        if c = '\u2d7f' then some (1, .letter .tifinaghTied)
        else if joined && tifinaghLetters.has c then some (0, .other)
        else none
      | .tifinaghTied => if tifinaghLetters.has c then some (-1, .other) else none
      | .lisuTone => if lisuTones.has c then some (0, .other) else none
      | .orkhonI true => if c.toNat = 0x10C32 then some (0, .other) else none
      | _ => none

end Letter

/-- The columns that a character takes by itself, and what it is for the character before it. -/
def alone (c : Char) : Nat × Following :=
  match Letter.of? c with
  | some l => (1, .letter l)
  | none =>
    if regionalIndicators.has c then (1, .indicators false)
    else if modifiers.has c then (2, .modifier)
    else if CharClass.emoji.has c then (2, .emoji)
    else if zeroWidth.has c then (0, .other)
    else if wide.has c then (2, .other)
    else if c = '\u17a4' then (2, .other)
    else if c = '\u17d8' then (3, .other)
    else (1, .other)

namespace Following

/-- What is left of the text behind a selector: letters, which no selector parts, and before
    the form of an emoji also what is joined to an emoji. -/
def behind : Form → Following → Following
  | _, .letter l => .letter l
  | .emoji, .joinedEmoji => .joinedEmoji
  | .emoji, .joinedKeycap => .joinedKeycap
  | _, _ => .other

/-- What a character adds before a text that it joins with, and what the two are together.
    Two regional indicators that are joined to an emoji take no more columns than it does. -/
def before (c : Char) : Following → Option (Int × Following)
  | .letter l => l.before c
  | .emoji => if c = joiner then some (0, .joinedEmoji) else none
  | .modifier =>
    if modifierBases.has c then some (0, .emoji)
    else if c = joiner then some (0, .joinedEmoji)
    else none
  | .indicators several =>
    if regionalIndicators.has c then some (1, .indicators true)
    else if several && c = joiner then some (0, .joinedEmoji)
    else none
  | .joinedEmoji =>
    if c = '\u20e3' then some (0, .joinedKeycap)
    else if regionalIndicators.has c then some (1, .joinedIndicator)
    else if modifiers.has c then some (0, .modifier)
    else if c.toNat = 0xE007F then some (0, .tagLetters 0)
    else if CharClass.emoji.has c then some (0, .emoji)
    else none
  | .joinedIndicator =>
    if regionalIndicators.has c then some (-1, .joinedIndicators true) else none
  | .joinedIndicators even =>
    if regionalIndicators.has c then some (if even then 3 else -1, .joinedIndicators !even)
    else if c = joiner then some (0, .joinedEmoji)
    else none
  | .tagLetters count =>
    if CharClass.tagLetters.has c && count < 6 then some (0, .tagLetters (count + 1))
    else if CharClass.tagDigits.has c && count < 5 then some (0, .tagDigits 1)
    else if c.toNat = 0x1F3F4 && 3 ≤ count then some (0, .emoji)
    else none
  | .tagDigits count =>
    if CharClass.tagDigits.has c && count < 3 then some (0, .tagDigits (count + 1))
    else if c.toNat = 0x1F3F4 && count = 3 then some (0, .emoji)
    else none
  | _ => none

end Following

namespace Context

/-- What follows a character that does not take the form the selector asks for. -/
def unselected (context : Context) : Following :=
  match context.form with
  | none => context.following
  | some _ => context.following.behind .text

/-- The context with a selector before it. -/
def select (context : Context) (form : Form) : Context :=
  ⟨context.unselected.behind form, some form⟩

/-- What a character adds to the columns of the text that follows it, and the context that it
    makes for the character before it. All characters up to the no-break space take one
    column, but a carriage return takes none before its newline. -/
def before (c : Char) (context : Context) : Int × Context :=
  if context.form = some .emoji ∧ emojiForms.has c then
    let joined := context.following = .joinedEmoji ∨ context.following = .joinedKeycap
    (if joined then 0 else 2, { following := .emoji })
  else if context.form = some .text ∧ textForms.has c then (1, {})
  else if c = '\n' then (1, { following := .newline })
  else if c = '\r' ∧ context.following = .newline then (0, {})
  else if c.toNat ≤ 0xA0 then (1, {})
  else if c = '\ufe0f' then (0, context.select .emoji)
  else if c = '\ufe0e' then (0, context.select .text)
  else
    match context.unselected.before c with
    | some (added, following) => (added, { following })
    | none => let (added, following) := alone c; (added, { following })

end Context

/-- The columns of a text and the context that it makes for what stands before it. -/
def measure : List Char → Int × Context
  | [] => (0, {})
  | c :: cs =>
    let (width, context) := measure cs
    let (added, context) := context.before c
    (width + added, context)

/-- The columns of a text. -/
def columns (text : List Char) : Nat := (measure text).1.toNat

end Wordcode.Text
