import Antic.IrSyntax

/-! # The six targets -/

namespace AnticIr

inductive TargetOs where
  | linux | macos | windows
  deriving DecidableEq, Repr, Inhabited

inductive TargetArch where
  | x8664 | arm64
  deriving DecidableEq, Repr, Inhabited

/-- `enum target`. -/
inductive Target where
  | linuxX8664 | linuxArm64 | macosX8664 | macosArm64 | windowsX8664
  | windowsArm64
  deriving DecidableEq, Repr, Inhabited

/-- The `os` of `target_info`. -/
def Target.os : Target → TargetOs
  | .linuxX8664 | .linuxArm64 => .linux
  | .macosX8664 | .macosArm64 => .macos
  | .windowsX8664 | .windowsArm64 => .windows

/-- The `arch` of `target_info`. -/
def Target.arch : Target → TargetArch
  | .linuxX8664 | .macosX8664 | .windowsX8664 => .x8664
  | .linuxArm64 | .macosArm64 | .windowsArm64 => .arm64

/-- `target_type`: the fixed-width type of `c_long`, `c_wchar` or the word of a
    Mutex on the target, or the type. -/
def Target.type (t : Target) : IrType → IrType
  | .clong => if t.os = .windows then .i32 else .i64
  | .cwchar => if t.os = .windows then .i16 else .i32
  | .lock => if t.os = .windows then .i64 else .i32
  | type => type

/-- `wchar_signed`. -/
def Target.wcharSigned (t : Target) : Bool := t.os = .macos ∨ (t.os = .linux ∧ t.arch = .x8664)

/-- `signed_op`: the signed form of an operation that lowering writes unsigned. -/
def signedOp : IrOp → IrOp
  | .udiv => .sdiv
  | .urem => .srem
  | .shrU => .shrS
  | .ult => .slt
  | .ule => .sle
  | .ugt => .sgt
  | .uge => .sge
  | .zext => .sext
  | .uitof => .sitof
  | .ftoui => .ftosi
  | .mulhU => .mulhS
  | .addSatU => .addSatS
  | .subSatU => .subSatS
  | .mulSatU => .mulSatS
  | .shrUFl => .shrSFl
  | op => op

end AnticIr
