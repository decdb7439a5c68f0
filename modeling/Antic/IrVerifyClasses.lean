import Antic.IrSyntax

/-! # The class records of a module — `check_class` of `ir_verify`

    Every global, function, aggregate and field that a class record names exists. -/

namespace AnticIr

/-- `global_ok`. -/
def globalOk (m : IrModule) (g : Nat) (optional : Bool) : Bool :=
  (optional && g = irNoIndex) || g < m.globals.length

/-- The number of fields of an aggregate, none past the end. -/
def fieldCount (m : IrModule) (agg : Nat) : Nat :=
  match m.aggs[agg]? with
  | none => 0
  | some t => t.fields.length

/-- `check_class`. -/
def checkClass (m : IrModule) (c : IrClass) : Bool :=
  globalOk m c.descriptor false && globalOk m c.base false &&
  globalOk m c.table true &&
  (c.init = irNoIndex || c.init < m.functions.length) &&
  c.agg < m.aggs.length &&
  c.subtables.all (fun sub =>
    globalOk m sub.interface false && globalOk m sub.table false &&
    sub.agg < m.aggs.length && sub.field < fieldCount m sub.agg) &&
  c.mutableFields.all (fun field => field < fieldCount m c.agg) &&
  c.injects.all (fun i => globalOk m i.descriptor false) &&
  c.provides.all (fun p => globalOk m p.descriptor false)

/-- The class records of `m` pass `ir_verify`. -/
def ClassesOk (m : IrModule) : Prop := ∀ c ∈ m.classes, checkClass m c = true

instance (m : IrModule) : Decidable (ClassesOk m) :=
  inferInstanceAs (Decidable (∀ c ∈ m.classes, checkClass m c = true))

theorem ClassesOk.descriptor_lt {m : IrModule} (h : ClassesOk m) {c : IrClass}
    (hc : c ∈ m.classes) : c.descriptor < m.globals.length := by
  have hok := h c hc
  simp only [checkClass, globalOk, Bool.and_eq_true] at hok
  simpa using hok.1.1.1.1.1.1.1.1

end AnticIr
