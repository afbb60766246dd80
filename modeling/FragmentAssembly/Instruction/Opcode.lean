/-!
# Opcodes

The operations of the instruction set, under their mnemonics.
-/

namespace FragmentAssembly

inductive Opcode where
  /-- Sum. -/
  | add
  /-- Cosine of a scalar. -/
  | cos
  /-- Derivative along the window x axis. -/
  | ddx
  /-- Derivative along the window y axis. -/
  | ddy
  /-- Dot product of three components. -/
  | dp3
  /-- Dot product of four components. -/
  | dp4
  /-- Distance vector. -/
  | dst
  /-- Power of two. -/
  | ex2
  /-- Floor. -/
  | flr
  /-- Fractional part. -/
  | frc
  /-- Discards the fragment if a selected condition code passes. -/
  | kil
  /-- Binary logarithm of a scalar. -/
  | lg2
  /-- Lighting coefficients. -/
  | lit
  /-- Linear interpolation. -/
  | lrp
  /-- Product plus a third operand. -/
  | mad
  /-- Greater operand. -/
  | max
  /-- Lesser operand. -/
  | min
  /-- Copy. -/
  | mov
  /-- Product. -/
  | mul
  /-- Packs two halves. -/
  | pk2h
  /-- Packs two unsigned shorts. -/
  | pk2us
  /-- Packs four signed bytes. -/
  | pk4b
  /-- Packs four unsigned bytes. -/
  | pk4ub
  /-- Power of two scalars. -/
  | pow
  /-- Reciprocal of a scalar. -/
  | rcp
  /-- Reflection of a direction about an axis. -/
  | rfl
  /-- Reciprocal of the square root of a scalar. -/
  | rsq
  /-- One where the operands are equal. -/
  | seq
  /-- Zero. -/
  | sfl
  /-- One where the first operand is at least the second. -/
  | sge
  /-- One where the first operand is greater. -/
  | sgt
  /-- Sine of a scalar. -/
  | sin
  /-- One where the first operand is at most the second. -/
  | sle
  /-- One where the first operand is less. -/
  | slt
  /-- One where the operands differ. -/
  | sne
  /-- One. -/
  | str
  /-- Difference. -/
  | sub
  /-- Texture lookup. -/
  | tex
  /-- Texture lookup with a bias to the level of detail. -/
  | txb
  /-- Texture lookup with given derivatives. -/
  | txd
  /-- Texture lookup with a projective division. -/
  | txp
  /-- Unpacks two halves. -/
  | up2h
  /-- Unpacks two unsigned shorts. -/
  | up2us
  /-- Unpacks four signed bytes. -/
  | up4b
  /-- Unpacks four unsigned bytes. -/
  | up4ub
  /-- Transformation of the plane. -/
  | x2d
  /-- End of the program. -/
  | halt
deriving DecidableEq, Repr, Inhabited

namespace Opcode

def mnemonic : Opcode → String
  | add => "ADD"
  | cos => "COS"
  | ddx => "DDX"
  | ddy => "DDY"
  | dp3 => "DP3"
  | dp4 => "DP4"
  | dst => "DST"
  | ex2 => "EX2"
  | flr => "FLR"
  | frc => "FRC"
  | kil => "KIL"
  | lg2 => "LG2"
  | lit => "LIT"
  | lrp => "LRP"
  | mad => "MAD"
  | max => "MAX"
  | min => "MIN"
  | mov => "MOV"
  | mul => "MUL"
  | pk2h => "PK2H"
  | pk2us => "PK2US"
  | pk4b => "PK4B"
  | pk4ub => "PK4UB"
  | pow => "POW"
  | rcp => "RCP"
  | rfl => "RFL"
  | rsq => "RSQ"
  | seq => "SEQ"
  | sfl => "SFL"
  | sge => "SGE"
  | sgt => "SGT"
  | sin => "SIN"
  | sle => "SLE"
  | slt => "SLT"
  | sne => "SNE"
  | str => "STR"
  | sub => "SUB"
  | tex => "TEX"
  | txb => "TXB"
  | txd => "TXD"
  | txp => "TXP"
  | up2h => "UP2H"
  | up2us => "UP2US"
  | up4b => "UP4B"
  | up4ub => "UP4UB"
  | x2d => "X2D"
  | halt => "END"

end Opcode

end FragmentAssembly
