import Masonry.Catalog
import Masonry.Text.Digits

/-!
# The grammar of the stone language

A phrase relates the texts of some tokens to what they stand for. A source stands for a list of
descriptions, each of a shape:

```text
Integer        = digit {digit}
Decimal        = ['-'] Integer ['.' Integer]
Triple         = Decimal ',' Decimal ',' Decimal
Name           = letter {letter | digit}
Literal        = '"' characters '"'
Series of P    = P ',' P ',' P {',' P}
PixelPair      = Integer ',' Integer
TexturePoints  = PixelPair ':' PixelPair | Series of PixelPair
Polygon        = Series of Integer ';' Integer
Index          = '[' Integer ']'
ListEntry of P = [Index] P ';'
Statement      = 'ID' '=' Integer ';'       | 'CAPTION' '=' Literal ';'
               | 'SCALE' '=' Triple ';'     | 'TRANSLATION' '=' Triple ';'
               | 'TEX_SIZE' '=' Integer ';' | 'TEX_FILE' '=' Literal ';'
               | 'VERT' '{' {ListEntry of Triple} '}'
               | 'TEX_COO' '{' {ListEntry of TexturePoints} '}'
               | 'FACES' '{' {ListEntry of Polygon} '}'
Object         = 'OBJ' Name ['CLONEOF' Name] '{' {Statement} '}'
Source         = {Object}
```

What a description means depends on the shapes before it, and so does whether it means anything: its
name must be new, the shape it copies must be there, and an index must be one of the list that the
entry goes into (`Description.Admissible`).
-/

namespace Masonry

/-- The texts of some tokens, and what they stand for. -/
abbrev Phrase (β : Type) := List String → β → Prop

namespace Phrase

variable {β : Type}

/-- A word or nothing. -/
inductive Flag (word : String) : Phrase Bool
  | up : Flag word [word] true
  | down : Flag word [] false

/-- A phrase after a word. -/
inductive After (word : String) (P : Phrase β) : Phrase β
  | mk {xs b} (h : P xs b) : After word P (word :: xs) b

/-- A phrase or nothing. -/
inductive Maybe (P : Phrase β) : Phrase (Option β)
  | absent : Maybe P [] none
  | present {xs b} (h : P xs b) : Maybe P xs (some b)

/-- A phrase any number of times. -/
inductive Many (P : Phrase β) : Phrase (List β)
  | nil : Many P [] []
  | cons {xs ys b bs} (h : P xs b) (hs : Many P ys bs) : Many P (xs ++ ys) (b :: bs)

/-- A phrase three times or more, with commas between. -/
inductive Series (P : Phrase β) : Phrase (List β)
  | mk {xs ys zs ws a b c more} (first : P xs a) (second : P ys b) (third : P zs c)
      (others : Many (After "," P) ws more) :
      Series P (xs ++ "," :: (ys ++ "," :: (zs ++ ws))) (a :: b :: c :: more)

/-- A phrase any number of times between braces. -/
inductive Block (P : Phrase β) : Phrase (List β)
  | mk {xs bs} (h : Many P xs bs) : Block P ("\x7b" :: (xs ++ ["\x7d"])) bs

/-- A phrase between an equals sign and a semicolon. -/
inductive Assigned (P : Phrase β) : Phrase β
  | mk {xs b} (h : P xs b) : Assigned P ("=" :: (xs ++ [";"])) b

/-- A run of digits that stands for a number in the signed 32-bit range. -/
inductive Integer : Phrase Nat
  | mk {text : String} (nonempty : text.toList ≠ []) (digits : ∀ c ∈ text.toList, c.isDigit = true)
      (fits : Text.digitsValue text.toList < 2147483648) :
      Integer [text] (Text.digitsValue text.toList)

/-- A letter, and letters and digits after it. -/
inductive Name : Phrase String
  | mk {text : String} {c : Char} {cs : List Char} (spelling : text.toList = c :: cs)
      (letter : c.isAlpha = true) (alphanumeric : ∀ d ∈ cs, d.isAlphanum = true) : Name [text] text

/-- Any characters in double quotes. -/
inductive Literal : Phrase String
  | mk {text : String} {cs : List Char} (spelling : text.toList = '"' :: cs ++ ['"']) :
      Literal [text] (String.ofList cs)

/-- A number with an optional sign and optional fraction digits. -/
inductive Decimal {α : Type} [Scalar α] : Phrase α
  | mk {xs ys zs negative whole digits} (sign : Flag "-" xs negative) (integer : Integer ys whole)
      (fraction : Maybe (After "." Integer) zs digits) :
      Decimal (xs ++ (ys ++ zs)) (Scalar.decimal negative whole digits)

/-- Three numbers with commas between. -/
inductive Triple {α : Type} [Scalar α] : Phrase (Vec3 α)
  | mk {xs ys zs x y z} (first : Decimal xs x) (second : Decimal ys y) (third : Decimal zs z) :
      Triple (xs ++ "," :: (ys ++ "," :: zs)) ⟨x, y, z⟩

/-- Two integers with a comma between. -/
inductive PixelPair : Phrase Pixel
  | mk {xs ys x y} (first : Integer xs x) (second : Integer ys y) :
      PixelPair (xs ++ "," :: ys) ⟨x, y⟩

/-- Two corners of a rectangle, or the points of a polygon. -/
inductive TexturePoints : Phrase TexCoords
  | corners {xs ys p q} (first : PixelPair xs p) (second : PixelPair ys q) :
      TexturePoints (xs ++ ":" :: ys) (.corners p q)
  | points {xs list} (h : Series PixelPair xs list) : TexturePoints xs (.points list)

/-- The vertices of a polygon and the index of its texture coordinates. -/
inductive Polygon : Phrase Face
  | mk {xs ys vertices texCoords} (corners : Series Integer xs vertices)
      (texture : Integer ys texCoords) : Polygon (xs ++ ";" :: ys) ⟨vertices, texCoords⟩

/-- An index in brackets. -/
inductive Index : Phrase Nat
  | mk {xs n} (h : Integer xs n) : Index ("[" :: (xs ++ ["]"])) n

end Phrase

/-- A value for a list: with an index it replaces an element, without one it is added at the end. -/
structure Entry (β : Type) where
  index : Option Nat
  value : β
  deriving DecidableEq, Repr

namespace Entry

variable {β : Type}

/-- The list with the value in it. -/
def put (list : List β) (e : Entry β) : List β :=
  match e.index with
  | none => list ++ [e.value]
  | some i => list.set i e.value

/-- The list has the element that is to be replaced. -/
def Fits (list : List β) (e : Entry β) : Prop := ∀ i ∈ e.index, i < list.length

end Entry

/-- Each element fits the state that the elements before it lead to. -/
def Along {β σ : Type} (fits : σ → β → Prop) (next : σ → β → σ) : σ → List β → Prop
  | _, [] => True
  | s, b :: bs => fits s b ∧ Along fits next (next s b) bs

/-- What is said about a shape. -/
inductive Item (α : Type) where
  | id (n : Nat)
  | caption (text : String)
  | scale (v : Vec3 α)
  | texSize (n : Nat)
  | texFile (text : String)
  | shift (v : Vec3 α)
  | vertices (list : List (Entry (Vec3 α)))
  | texCoords (list : List (Entry TexCoords))
  | faces (list : List (Entry Face))
  deriving DecidableEq, Repr

namespace Item

variable {α : Type}

/-- The shape of which it is said. -/
def apply (s : Shape α) : Item α → Shape α
  | id n => { s with id := Int32.ofNat n }
  | caption text => { s with caption := text }
  | scale v => { s with scale := v }
  | texSize n => { s with texSize := n }
  | texFile text => { s with texFile := text }
  | shift v => { s with shift := v }
  | vertices list => { s with vertices := list.foldl Entry.put s.vertices }
  | texCoords list => { s with texCoords := list.foldl Entry.put s.texCoords }
  | faces list => { s with faces := list.foldl Entry.put s.faces }

/-- Every entry fits the list of the shape as the entries before it leave it. -/
def Fits (s : Shape α) : Item α → Prop
  | vertices list => Along Entry.Fits Entry.put s.vertices list
  | texCoords list => Along Entry.Fits Entry.put s.texCoords list
  | faces list => Along Entry.Fits Entry.put s.faces list
  | _ => True

end Item

/-- What is said about a new shape: its name, the name of the shape that it starts as a copy of, and
what differs. -/
structure Description (α : Type) where
  name : String
  source : Option String
  items : List (Item α)
  deriving DecidableEq, Repr

namespace Phrase

variable {α β : Type} [Scalar α]

/-- A value for a list. -/
inductive ListEntry (P : Phrase β) : Phrase (Entry β)
  | mk {xs ys index value} (position : Maybe Index xs index) (content : P ys value) :
      ListEntry P (xs ++ (ys ++ [";"])) ⟨index, value⟩

/-- An item, which begins with the word for what it is about. -/
inductive Statement : Phrase (Item α)
  | id {xs n} (h : Assigned Integer xs n) : Statement ("ID" :: xs) (.id n)
  | caption {xs text} (h : Assigned Literal xs text) : Statement ("CAPTION" :: xs) (.caption text)
  | scale {xs v} (h : Assigned Triple xs v) : Statement ("SCALE" :: xs) (.scale v)
  | texSize {xs n} (h : Assigned Integer xs n) : Statement ("TEX_SIZE" :: xs) (.texSize n)
  | texFile {xs text} (h : Assigned Literal xs text) :
      Statement ("TEX_FILE" :: xs) (.texFile text)
  | shift {xs v} (h : Assigned Triple xs v) : Statement ("TRANSLATION" :: xs) (.shift v)
  | vertices {xs list} (h : Block (ListEntry Triple) xs list) :
      Statement ("VERT" :: xs) (.vertices list)
  | texCoords {xs list} (h : Block (ListEntry TexturePoints) xs list) :
      Statement ("TEX_COO" :: xs) (.texCoords list)
  | faces {xs list} (h : Block (ListEntry Polygon) xs list) : Statement ("FACES" :: xs) (.faces list)

/-- The description of a shape. -/
inductive Object : Phrase (Description α)
  | mk {xs ys zs name source items} (called : Name xs name)
      (copied : Maybe (After "CLONEOF" Name) ys source) (body : Block Statement zs items) :
      Object ("OBJ" :: (xs ++ (ys ++ zs))) ⟨name, source, items⟩

/-- The descriptions of a catalog. -/
def Source : Phrase (List (Description α)) := Many Object

end Phrase

namespace Description

variable {α : Type} [Scalar α]

/-- The shape that the description starts from; a blank one if the shape to copy is missing. -/
def base (c : Catalog α) (d : Description α) : Shape α :=
  match d.source.bind c.named? with
  | none => .blank d.name
  | some s => s.renamed d.name

/-- The described shape. -/
def shape (c : Catalog α) (d : Description α) : Shape α := d.items.foldl Item.apply (d.base c)

/-- The catalog with the described shape added. -/
def addTo (c : Catalog α) (d : Description α) : Catalog α := c.push (d.shape c)

/-- The items fit the shape that they are about, each as the items before it leave the shape. -/
def ItemsFit (c : Catalog α) (d : Description α) : Prop :=
  Along Item.Fits Item.apply (d.base c) d.items

/-- The catalog of the described shapes. -/
def catalog (ds : List (Description α)) : Catalog α := ds.foldl addTo .empty

/-- Descriptions that mean something: names are distinct, what is copied is described before, and
every index is one of the list that its entry goes into. -/
structure Admissible (ds : List (Description α)) : Prop where
  names : (ds.map name).Nodup
  sources : ∀ before d after, ds = before ++ d :: after → ∀ n ∈ d.source, n ∈ before.map name
  indices : Along ItemsFit addTo .empty ds

end Description

end Masonry
