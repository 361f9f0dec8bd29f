import Nivren.Allowed

/-! A host without resources, for closed instances: every native answers with nothing and handles
hold nothing. -/

namespace Nivren

/-- A library that treats floats, decimals and dates as opaque patterns. -/
def RustLibrary.bare : RustLibrary where
  floatAdd left _ := left
  floatSub left _ := left
  floatMul left _ := left
  floatDiv left _ := left
  floatRem left _ := left
  floatNeg value := value
  floatEq left right := left == right
  floatLess _ _ := false
  floatLessEq left right := left == right
  floatIsZero value := value == 0
  floatIsFinite _ := true
  floatText _ := ""
  decimalAdd left _ := some left
  decimalSub left _ := some left
  decimalMul left _ := some left
  decimalDiv left _ := some left
  decimalRem left _ := some left
  decimalNeg value := some value
  decimalEq left right := left == right
  decimalLess _ _ := false
  decimalLessEq left right := left == right
  decimalIsZero value := value == 0
  decimalText _ := ""
  dateEq left right := left == right
  dateLess _ _ := false
  dateLessEq left right := left == right
  debugText text := text

/-- A host whose natives are those of the given prelude; each of them returns `none`. -/
def Host.bare (prelude : List (String × Binding Chunk)) : Host Chunk Unit Unit where
  lib := .bare
  prelude := prelude
  start _ _ _ world := .done (.ok .null) world
  resume _ reply world := .done reply world
  drain _ _ world := .done (.ok (.array [])) world
  derived _ _ _ := .ok .null
  inScope _ _ _ _ := true
  canonicalize arguments := arguments
  close _ _ _ world := (.ok (), world)
  effectDigest _ := ""
  effectToJson _ := .ok ""
  effectFromJson _ _ := .ok .null
  held _ _ _ := []
  stored _ := []
  waiting _ := []
  handleBytes _ _ _ _ := some 64

theorem Host.bare_tame (prelude : List (String × Binding Chunk)) : (Host.bare prelude).Tame where
  start _ _ _ _ _ _ hw := ⟨fun _ h => by cases h; exact Value.all_null, hw⟩
  resume _ _ _ _ _ hr hw := ⟨hr, hw⟩
  drain _ _ _ _ hw := ⟨fun _ h => by cases h; simp, hw⟩
  derived _ _ _ _ _ _ h := by cases h; exact Value.all_null
  canonicalize _ _ h := h
  close _ _ _ _ _ h := h
  effectFromJson _ _ _ _ h := by cases h; exact Value.all_null

def Chunk.ofOps (ops : List Op) : Chunk := ⟨bytecodeVersion, ops.map (⟨·, ⟨1, 1⟩⟩)⟩

end Nivren
