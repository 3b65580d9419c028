/-!
# The bundled palette

The source of the shapes that an editor starts with: a unit block, and copies of it scaled to their
length, height and width.
-/

namespace Masonry.Palette

/-- The description of the unit block, line by line. -/
def block : List String :=
  ["// Stone palette for the block designer.",
    "//",
    "// Every stone is a scaled copy of the unit block. Type codes read",
    "// sizeX*100 + sizeY*10 + sizeZ in grid cells; one grid level is 0.4 units",
    "// high. Blocks are centered on their first cell so quarter turns pivot in",
    "// place.",
    "",
    "OBJ block \x7b",
    "    ID = 111;",
    "    CAPTION = \"1x1x1\";",
    "    TEX_SIZE = 512;",
    "    TEX_FILE = \"stone.png\";",
    "    TRANSLATION = -0.5, 0, -0.5;",
    "    SCALE = 1, 0.4, 1;",
    "    VERT \x7b",
    "        0,0,0; 1,0,0; 1,1,0; 0,1,0;",
    "        0,0,1; 1,0,1; 1,1,1; 0,1,1;",
    "    \x7d",
    "    TEX_COO \x7b",
    "        0,0:511,511;",
    "        0,0:511,204;",
    "    \x7d",
    "    FACES \x7b",
    "        0,3,2,1; 0;",
    "        4,5,6,7; 0;",
    "        0,4,7,3; 1;",
    "        1,2,6,5; 1;",
    "        3,7,6,2; 0;",
    "        0,1,5,4; 0;",
    "    \x7d",
    "\x7d"]

/-- The sizes of the other stones: length, height in levels and width. -/
def sizes : List (Nat × Nat × Nat) :=
  [(2, 1, 1), (2, 2, 1), (1, 3, 1), (2, 3, 1), (3, 3, 1), (2, 3, 2), (4, 3, 1), (3, 3, 2), (6, 3, 2),
    (4, 3, 2), (8, 3, 2), (10, 3, 2)]

/-- The description of a stone, line by line; a level is four tenths high. -/
def stone : Nat × Nat × Nat → List String
  | (x, y, z) =>
    let code := 100 * x + 10 * y + z
    ["", s!"OBJ stone{code} CLONEOF block \x7b", s!"    ID = {code};",
      s!"    CAPTION = \"{x}x{y}x{z}\";",
      s!"    SCALE = {x}, {4 * y / 10}.{4 * y % 10}, {z};", "\x7d"]

/-- The source of the palette. -/
def source : String := String.join ((block ++ sizes.flatMap stone).map (· ++ "\n"))

end Masonry.Palette
