import BeanScript.Proofs.Script.Parts

/-!
# The expressions of nested definitions

A script is read together with its definition, to find the expression that stands for each nested
definition. The resolver has supplied every one of them, and a definition that it does not supply is
the only reason for a fault about one.

## Main definitions

* `Value.supplied` — the nested definitions of a value with their expressions, read from the code
* `Part.expressions` — the expressions of the values of a part, read from its statement
* `Definition.supplied` — the nested definitions of a definition with their expressions

## Main results

* `Value.supplied_of_encode`, `Script.Context.supplied_of_statements` — the resolver has supplied
  every nested definition, in a script or in code that begins with one
* `Script.Context.not_supplied_of_statements` — why a nested definition is at fault
-/

namespace BeanScript

mutual

/-- The definitions nested in a value, each with the expression that stands for it in the
expression of the value. -/
def Value.supplied : Value → Expr → List (Definition × Expr)
  | .bean d, e => [(d, e)]
  | .array _ vs, .newArray _ es => suppliedElements vs es
  | .list _ vs, .staticCall _ _ es => suppliedElements vs es
  | .set _ vs, .staticCall _ _ es => suppliedElements vs es
  | .map _ fs, .staticCall _ _ es => suppliedEntries fs es
  | _, _ => []
termination_by structural v => v

/-- The definitions nested in values with their expressions. -/
def suppliedElements : List Value → List Expr → List (Definition × Expr)
  | v :: vs, e :: es => v.supplied e ++ suppliedElements vs es
  | _, _ => []
termination_by structural vs => vs

/-- The definitions nested in keys and values of a map with their expressions. -/
def suppliedEntries : List (Value × Value) → List Expr → List (Definition × Expr)
  | (key, v) :: fs, .staticCall _ _ [j, e] :: es =>
    key.supplied j ++ v.supplied e ++ suppliedEntries fs es
  | _, _ => []
termination_by structural fs => fs

end

/-- The expression was supplied for the definition, at some position. -/
def Resolver.Supplies (resolve : Resolver) (b : Definition) (o : Definition × Expr) : Prop :=
  o.1 = b ∧ ∃ position, resolve position (.bean b) = some o.2

section Encode

variable {resolve : Resolver} {name : String}

theorem suppliedElements_of_forall₂ {vs : List Value} {es : List Expr}
    (h : List.Forall₂ (fun v e => List.Forall₂ resolve.Supplies v.beans (v.supplied e)) vs es) :
    List.Forall₂ resolve.Supplies (vs.flatMap Value.beans) (suppliedElements vs es) := by
  induction h with
  | nil => exact .nil
  | cons hv _ ih => exact List.rel_append hv ih

/-- The definitions nested in a value were supplied, one by one. -/
theorem Value.supplied_of_encode {v : Value} {e : Expr} (h : v.encode resolve name = .ok e) :
    List.Forall₂ resolve.Supplies v.beans (v.supplied e) := by
  have helements : ∀ {vs : List Value} {es : List Expr},
      (∀ v ∈ vs, ∀ e, v.encode resolve name = .ok e →
        List.Forall₂ resolve.Supplies v.beans (v.supplied e)) →
      vs.mapM (encode resolve name) = .ok es →
      List.Forall₂ resolve.Supplies (vs.flatMap beans) (suppliedElements vs es) := by
    intro vs es ih hes
    exact suppliedElements_of_forall₂
      (forall₂_imp_of_mem (mapM_eq_ok_iff.mp hes) fun v hv e _ he => ih v hv e he)
  induction v generalizing e with
  | atom a => cases a <;> exact .nil
  | array c vs ih =>
    rw [encode_array] at h
    obtain ⟨es, hes, rfl⟩ := map_eq_ok_iff.mp h
    rw [beans_array]
    exact helements (fun v hv e => ih v hv) hes
  | list k vs ih =>
    rw [encode_list] at h
    obtain ⟨es, hes, rfl⟩ := map_eq_ok_iff.mp h
    rw [beans_list]
    exact helements (fun v hv e => ih v hv) hes
  | set k vs ih =>
    rw [encode_set] at h
    obtain ⟨es, hes, rfl⟩ := map_eq_ok_iff.mp h
    rw [beans_set]
    exact helements (fun v hv e => ih v hv) hes
  | map k fs ih =>
    rw [encode_map] at h
    obtain ⟨es, hes, rfl⟩ := map_eq_ok_iff.mp h
    rw [beans_map]
    have hentries := forall₂_imp_of_mem
      (S := fun f e => ∃ j x, e = Api.Factory.entry.call [j, x] ∧
        List.Forall₂ resolve.Supplies f.1.beans (f.1.supplied j) ∧
        List.Forall₂ resolve.Supplies f.2.beans (f.2.supplied x))
      (mapM_eq_ok_iff.mp hes) fun f hf e _ he => by
        rw [encodeEntry] at he
        split at he
        · cases he
        · obtain ⟨j, hj, he⟩ := bind_eq_ok_iff.mp he
          obtain ⟨x, hx, rfl⟩ := map_eq_ok_iff.mp he
          exact ⟨j, x, rfl, (ih f hf).1 hj, (ih f hf).2 hx⟩
    change List.Forall₂ _ _ (suppliedEntries fs es)
    clear ih h hes helements
    induction hentries with
    | nil => exact .nil
    | cons hf _ ih =>
      obtain ⟨j, x, rfl, hkey, hvalue⟩ := hf
      exact List.rel_append (List.rel_append hkey hvalue) ih
  | bean d =>
    rw [encode] at h
    split at h
    · next x hx =>
      cases h
      exact .cons ⟨rfl, name, hx⟩ .nil
    · cases h

/-- A value is at fault for a nested definition only where the resolver does not supply one. -/
theorem Value.not_supplied_of_encode {v : Value} {position : String}
    (h : v.encode resolve name = .error (.unresolvedBean position)) :
    ∃ b ∈ v.beans, resolve name (.bean b) = none := by
  have helements : ∀ {vs : List Value} {f : List Expr → Expr},
      (∀ v ∈ vs, v.encode resolve name = .error (.unresolvedBean position) →
        ∃ b ∈ v.beans, resolve name (.bean b) = none) →
      (vs.mapM (encode resolve name)).map f = .error (.unresolvedBean position) →
      ∃ b ∈ vs.flatMap beans, resolve name (.bean b) = none := by
    intro vs f ih h
    obtain ⟨v, hv, hfault⟩ := exists_of_mapM_eq_error (map_eq_error_iff.mp h)
    obtain ⟨b, hb, hnone⟩ := ih v hv hfault
    exact ⟨b, List.mem_flatMap.mpr ⟨v, hv, hb⟩, hnone⟩
  induction v with
  | atom a =>
    exfalso
    cases a with
    | literal l =>
      cases l with
      | char c =>
        rw [encode, Atom.encode] at h
        split at h <;> cases h
      | _ => cases h
    | instanceOf type =>
      rw [encode, Atom.encode] at h
      split at h <;> cases h
    | _ => cases h
  | array c vs ih => rw [encode_array] at h; rw [beans_array]; exact helements ih h
  | list k vs ih => rw [encode_list] at h; rw [beans_list]; exact helements ih h
  | set k vs ih => rw [encode_set] at h; rw [beans_set]; exact helements ih h
  | map k fs ih =>
    rw [encode_map] at h
    rw [beans_map]
    obtain ⟨f, hf, hfault⟩ := exists_of_mapM_eq_error (map_eq_error_iff.mp h)
    have hmem : ∀ b ∈ f.1.beans ++ f.2.beans,
        b ∈ fs.flatMap fun e => e.1.beans ++ e.2.beans := fun b hb =>
      List.mem_flatMap.mpr ⟨f, hf, hb⟩
    rw [encodeEntry] at hfault
    split at hfault
    · cases hfault
    · rcases bind_eq_error_iff.mp hfault with hkey | ⟨j, -, hvalue⟩
      · obtain ⟨b, hb, hnone⟩ := (ih f hf).1 hkey
        exact ⟨b, hmem b (List.mem_append_left _ hb), hnone⟩
      · obtain ⟨b, hb, hnone⟩ := (ih f hf).2 (map_eq_error_iff.mp hvalue)
        exact ⟨b, hmem b (List.mem_append_right _ hb), hnone⟩
  | bean d =>
    rw [encode] at h
    split at h
    · cases h
    · next hnone => exact ⟨d, List.mem_cons_self, hnone⟩

end Encode

/-! ### Reading statements -/

/-- The expression of the value of an argument, read from that of the argument. -/
def Holder.written (h : Holder) (e : Expr) : Expr :=
  if h.hasHints then
    match e with
    | .construct _ (e :: _) => e
    | e => e
  else e

theorem Holder.written_expression (h : Holder) (e : Expr) : h.written (h.expression e) = e := by
  by_cases hhints : h.hasHints <;> simp [written, expression, hhints, Api.Constructor.call]

/-- The expression that a statement sets an attribute to. -/
def Stmt.attributeExpression? : Stmt → Option Expr
  | .expr (.call _ _ [_, e]) => some e
  | _ => none

namespace Part

/-- The expressions of the values of a part, read from its statement. -/
def expressions : Part → Stmt → List Expr
  | .indexed _ h, .expr (.call _ _ [_, e]) => [h.written e]
  | .generic _ h, .expr (.call _ _ [e]) => [h.written e]
  | .property _ _, .expr (.call _ _ [_, e]) => [e]
  | .metadata _ _, .expr (.call _ _ [_, e]) => [e]
  | .qualifier _, .expr (.call _ _ [.construct _ (_ :: es)]) => es
  | .qualifier _, .nested (.declare _ _ (.construct _ (_ :: es)) :: block) =>
    es ++ block.dropLast.filterMap Stmt.attributeExpression?
  | _, _ => []

/-- The definitions nested in the values of a part with their expressions. -/
def supplied (p : Part) (s : Stmt) : List (Definition × Expr) :=
  suppliedElements (p.values.map Prod.snd) (p.expressions s)

/-- What a statement was made of is read from it. -/
theorem expressions_statement {c : Script.Context} {p : Part} {es : List Expr}
    (h : es.length = p.values.length) : p.expressions (p.statement c es) = es := by
  cases p with
  | indexed index argument =>
    obtain ⟨e, rfl⟩ := List.length_eq_one_iff.mp h
    exact congrArg ([·]) (argument.written_expression e)
  | generic number argument =>
    obtain ⟨e, rfl⟩ := List.length_eq_one_iff.mp h
    exact congrArg ([·]) (argument.written_expression e)
  | property name v => obtain ⟨e, rfl⟩ := List.length_eq_one_iff.mp h; rfl
  | metadata key v => obtain ⟨e, rfl⟩ := List.length_eq_one_iff.mp h; rfl
  | qualifier q =>
    have hlength : (es.drop q.primary.length).length = q.further.length := by
      rw [List.length_drop, h, values, Qualifier.inOrder, List.length_append]
      omega
    rw [statement]
    split
    · next hnone =>
      rw [List.isEmpty_iff.mp hnone] at hlength
      rw [Qualifier.construction,
        List.take_of_length_le (Nat.le_of_sub_eq_zero (List.length_drop ▸ hlength))]
      rfl
    · have hread : ∀ (entries : List (String × Value)) (fs : List Expr),
          fs.length = entries.length →
          (List.zipWith attributeStatement entries fs).filterMap Stmt.attributeExpression?
            = fs := by
        intro entries fs hfs
        induction entries generalizing fs with
        | nil => exact (List.length_eq_zero_iff.mp hfs).symm
        | cons entry entries ih =>
          obtain ⟨f, fs, rfl⟩ := List.exists_cons_of_length_eq_add_one hfs
          exact congrArg (f :: ·) (ih fs (Nat.succ.inj hfs))
      change es.take q.primary.length ++
        (q.attributeStatements es ++ _).dropLast.filterMap Stmt.attributeExpression? = es
      rw [List.dropLast_concat, Qualifier.attributeStatements, hread _ _ hlength,
        List.take_append_drop]

theorem supplied_of_write {c : Script.Context} {p : Part} {s : Stmt} (h : c.write p = .ok s) :
    List.Forall₂ c.resolve.Supplies (p.values.flatMap fun e => e.2.beans) (p.supplied s) := by
  obtain ⟨-, es, hes, rfl⟩ := Script.Context.write_eq_ok_iff.mp h
  have hvalues := mapM_eq_ok_iff.mp hes
  rw [supplied, expressions_statement hvalues.length_eq.symm]
  have hbeans : (p.values.map Prod.snd).flatMap Value.beans
      = p.values.flatMap fun e => e.2.beans := List.flatMap_map ..
  rw [← hbeans]
  exact suppliedElements_of_forall₂ (List.forall₂_map_left_iff.mpr
    (hvalues.imp fun _ _ he => Value.supplied_of_encode he))

end Part

/-- The definitions nested in a definition, each with the expression that stands for it in the
script. The settings have none; a statement stands for each part. -/
def Definition.supplied (keep : KeyFilter) (style : Style) (d : Definition) (block : Block) :
    List (Definition × Expr) :=
  (List.zipWith Part.supplied (d.parts keep)
    (block.drop (d.settings.statements style).length)).flatten

namespace Script.Context

variable {c : Script.Context} {d : Definition}

theorem supplied_of_forall₂ {resolve : Resolver} {ps : List Part} {block : Block}
    (h : List.Forall₂ (fun p s => List.Forall₂ resolve.Supplies
      (p.values.flatMap fun e => e.2.beans) (p.supplied s)) ps block) :
    List.Forall₂ resolve.Supplies (ps.flatMap fun p => p.values.flatMap fun e => e.2.beans)
      (List.zipWith Part.supplied ps block).flatten := by
  induction h with
  | nil => exact .nil
  | cons hs _ ih => exact List.rel_append hs ih

/-- Every nested definition has its expression in code that begins with the script, and the resolver
has supplied it. -/
theorem supplied_of_statements (hd : d.Distinct) {block code : Block}
    (h : c.statements d = .ok block) (hcode : block <+: code) :
    ((d.supplied c.keep c.style code).map Prod.fst).Perm (d.beans c.keep) ∧
      ∀ o ∈ d.supplied c.keep c.style code, ∃ position,
        c.resolve position (.bean o.1) = some o.2 := by
  rw [statements_eq] at h
  obtain ⟨parts, hparts, rfl⟩ := map_eq_ok_iff.mp h
  obtain ⟨rest, rfl⟩ := hcode
  have hforall := mapM_eq_ok_iff.mp hparts
  have hsupplied : List.Forall₂ c.resolve.Supplies
      ((d.parts c.keep).flatMap fun p => p.values.flatMap fun e => e.2.beans)
      (List.zipWith Part.supplied (d.parts c.keep) parts).flatten :=
    supplied_of_forall₂ (hforall.imp fun _ _ hs => Part.supplied_of_write hs)
  -- what comes after the parts is not looked at
  have hread : ∀ after, List.zipWith Part.supplied (d.parts c.keep) (parts ++ after)
      = List.zipWith Part.supplied (d.parts c.keep) parts := by
    intro after
    have happend : List.zipWith Part.supplied (d.parts c.keep ++ []) (parts ++ after) = _ :=
      List.zipWith_append hforall.length_eq
    simpa using happend
  rw [Definition.supplied, List.append_assoc, List.append_assoc, List.append_assoc,
    List.drop_left, hread]
  refine ⟨?_, fun o ho => ?_⟩
  · rw [map_eq_of_forall₂ (hsupplied.imp fun _ _ ho => ho.1)]
    exact Definition.perm_beans_parts hd
  · obtain ⟨b, -, rfl, hb⟩ := exists_of_forall₂ hsupplied.flip ho
    exact hb

/-- A script is at fault for a nested definition only where the resolver does not supply one. -/
theorem not_supplied_of_statements {position : String}
    (h : c.statements d = .error (.unresolvedBean position)) :
    ∃ b ∈ d.beans c.keep, ∃ name, c.resolve name (.bean b) = none := by
  rw [statements_eq] at h
  obtain ⟨p, hp, hfault⟩ := exists_of_mapM_eq_error (map_eq_error_iff.mp h)
  have hvalues : p.values.mapM (encodeEntryAt c.resolve) = .error (.unresolvedBean position) := by
    rw [write_eq] at hfault
    split at hfault
    · next f hf =>
      cases hfault
      cases p <;> simp [Part.fault?] at hf
    · exact map_eq_error_iff.mp hfault
  obtain ⟨e, he, hfault⟩ := exists_of_mapM_eq_error hvalues
  obtain ⟨b, hb, hnone⟩ := Value.not_supplied_of_encode hfault
  exact ⟨b, Definition.mem_beans_iff.mpr ⟨e.2, Definition.holds_of_mem_parts hp he, hb⟩, e.1, hnone⟩

end Script.Context

end BeanScript
