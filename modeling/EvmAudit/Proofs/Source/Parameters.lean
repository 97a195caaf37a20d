import Mathlib
import EvmAudit.Proofs.Finding
import EvmAudit.Source.Contracts

/-! Where the parameters of a function stand in the call data. Functions of one name share a list,
so the parameters of a later function are counted from behind those of the earlier ones. -/

namespace EvmAudit

theorem Table.get?_mapValues {κ ν μ : Type} [DecidableEq κ] (t : Table κ ν) (f : ν → μ) (k : κ) :
    (t.mapValues f).get? k = (t.get? k).map f := by
  obtain ⟨es⟩ := t
  change find? k (es.map fun e => (e.1, f e.2)) = (find? k es).map f
  induction es with
  | nil => rfl
  | cons e es ih =>
    rw [List.map_cons, find?, find?, ih]
    split <;> rfl

namespace Contracts

variable {node : Document} {table table' : Table String (List Parameter)}
  {fs done : List (String × List Parameter)}

def total (ps : List Parameter) : Int := (ps.map width).sum

theorem getElem?_place (start : Int) (front back : List Parameter) (p : Parameter) :
    (place start (front ++ p :: back))[front.length]? =
      some { p with position := some (start + total front) } := by
  induction front generalizing start with
  | nil => simp [place, total]
  | cons q front ih =>
    rw [List.cons_append, place, List.length_cons, List.getElem?_cons_succ, ih, Int.add_assoc]
    rfl

/-- The first literal of an array's type is its width. Anything else takes one place. -/
def Measures (declaration : Document) (p : Parameter) : Prop :=
  p.kind = "ArrayTypeName" ∧ (∃ literal literals d,
      Pattern.search (.object [("name", .text "Literal")]) declaration = .ok (literal :: literals) ∧
      literal.path ["attributes", "value"] = .ok d ∧ d.asInteger = .ok (width p)) ∨
    width p = 1 ∧ (p.kind = "ArrayTypeName" →
    Pattern.search (.object [("name", .text "Literal")]) declaration = .ok [])

theorem measures_of_parameter {p : Parameter} (h : parameter node = .ok p) : Measures node p := by
  obtain ⟨name, -, h⟩ := bind_eq_ok.1 h
  obtain ⟨children, -, h⟩ := bind_eq_ok.1 h
  dsimp only at h
  split at h
  case h_1 =>
    obtain ⟨type, -, h⟩ := bind_eq_ok.1 h
    split at h
    next hkind =>
      obtain ⟨literals, hl, h⟩ := bind_eq_ok.1 h
      cases literals with
      | nil =>
        cases h
        exact .inr ⟨rfl, fun _ => hl⟩
      | cons literal literals =>
        obtain ⟨d, hd, h⟩ := bind_eq_ok.1 h
        obtain ⟨size, hsize, h⟩ := bind_eq_ok.1 h
        cases h
        exact .inl ⟨hkind, literal, literals, d, hl, hd, hsize⟩
    next hkind =>
      cases h
      exact .inr ⟨rfl, fun hk => absurd hk hkind⟩
  all_goals cases h

/-- The name of a function, and its parameters: what the first list in it declares. -/
def Declares (node : Document) (f : String × List Parameter) : Prop :=
  (∃ d, node.path ["attributes", "name"] = .ok d ∧ d.text?.getD "" = f.1) ∧
    ∃ list lists declarations,
      Pattern.search (.object [("name", .text "ParameterList")]) node = .ok (list :: lists) ∧
      Pattern.search (.object [("name", .text "VariableDeclaration")]) list = .ok declarations ∧
      List.Forall₂ (fun declaration p => parameter declaration = .ok p ∧ Measures declaration p)
      declarations f.2

theorem declares_of_parametersOf {d : Document} {ps : List Parameter}
    (hd : node.path ["attributes", "name"] = .ok d) (h : parametersOf node = .ok ps) :
    Declares node (d.text?.getD "", ps) := by
  obtain ⟨lists, hlists, h⟩ := bind_eq_ok.1 h
  cases lists with
  | nil => cases h
  | cons list lists =>
    obtain ⟨declarations, hdecl, h⟩ := bind_eq_ok.1 h
    exact ⟨⟨d, hd, rfl⟩, list, lists, declarations, hlists, hdecl,
      (Finding.forall₂_of_mapM_eq_ok h).imp fun _ _ hp => ⟨hp, measures_of_parameter hp⟩⟩

/-- The parameters of all functions with a name. -/
def sharing (fs : List (String × List Parameter)) (name : String) : List Parameter :=
  (fs.filter (·.1 = name)).flatMap Prod.snd

def Gathered (fs : List (String × List Parameter)) (table : Table String (List Parameter)) : Prop :=
  ∀ name, table.get? name = if sharing fs name = [] then none else some (sharing fs name)

def gather (table : Table String (List Parameter)) (node : Document) :
    Except Fault (Table String (List Parameter)) := do
  let function := (← node.path ["attributes", "name"]).text?.getD ""
  match ← parametersOf node with
  | [] => return table
  | more => return table.insert function ((table.get? function).getD [] ++ more)

theorem gathered_gather (ht : Gathered done table) (h : gather table node = .ok table') :
    ∃ f, Declares node f ∧ Gathered (done ++ [f]) table' := by
  obtain ⟨d, hd, h⟩ := bind_eq_ok.1 h
  obtain ⟨ps, hps, h⟩ := bind_eq_ok.1 h
  refine ⟨(d.text?.getD "", ps), declares_of_parametersOf hd hps, fun name => ?_⟩
  have hshare : sharing (done ++ [(d.text?.getD "", ps)]) name =
      sharing done name ++ if d.text?.getD "" = name then ps else [] := by
    by_cases hn : d.text?.getD "" = name <;> simp [sharing, List.filter_append, hn]
  rw [hshare]
  cases ps with
  | nil =>
    cases h
    simpa using ht name
  | cons p ps =>
    cases h
    rw [Table.get?_insert, ht]
    by_cases hn : name = d.text?.getD ""
    · subst hn
      simp
      split <;> simp_all
    · simpa [hn, Ne.symm hn] using ht name

theorem gathered_foldlM {functions : List Document} (ht : Gathered done table)
    (h : functions.foldlM gather table = .ok table') :
    ∃ fs, List.Forall₂ Declares functions fs ∧ Gathered (done ++ fs) table' := by
  induction functions generalizing done table with
  | nil =>
    cases h
    exact ⟨[], .nil, by simpa using ht⟩
  | cons node functions ih =>
    obtain ⟨table₁, h₁, h⟩ := bind_eq_ok.1 (List.foldlM_cons.symm.trans h)
    obtain ⟨f, hf, ht₁⟩ := gathered_gather ht h₁
    obtain ⟨fs, hfs, ht'⟩ := ih ht₁ h
    exact ⟨f :: fs, .cons hf hfs, by simpa using ht'⟩

/-- A parameter stands behind those before it in its function, and behind the parameters of all
functions of that name before. So it has its right place in the function if and only if those take
no place. -/
def Places (fs : List (String × List Parameter)) (placed : Table String (List Parameter)) : Prop :=
  ∀ before name after front p back, fs = before ++ (name, front ++ p :: back) :: after →
    ∃ ps q, placed.get? name = some ps ∧ ps[(sharing before name ++ front).length]? = some q ∧
      q = { p with position := some (total (sharing before name) + total front) } ∧
      (q.position = some (total front) ↔ total (sharing before name) = 0)

theorem places_of_gathered (ht : Gathered fs table) : Places fs (table.mapValues (place 0)) := by
  intro before name after front p back hsplit
  have hshare : sharing fs name = (sharing before name ++ front) ++
      p :: (back ++ sharing after name) := by
    simp [hsplit, sharing]
  have hget : (table.mapValues (place 0)).get? name = some (place 0 (sharing fs name)) := by
    rw [Table.get?_mapValues, ht name, if_neg (by simp [hshare]), Option.map_some]
  exact ⟨_, _, hget, by rw [hshare, getElem?_place], by simp [total], by simp [total]⟩

/-- The parameters of a contract are read from its functions in their order, and each is placed
behind all that share its function's name. -/
theorem places_parameters {c : Contracts} {contract : String}
    (h : c.parameters contract = .ok table) : ∃ root functions fs, c.get contract = .ok root ∧
      Pattern.search (.object [("name", .text "FunctionDefinition")]) root = .ok functions ∧
      List.Forall₂ Declares functions fs ∧ Places fs (table.mapValues (place 0)) := by
  obtain ⟨root, hroot, h⟩ := bind_eq_ok.1 h
  obtain ⟨functions, hfunctions, h⟩ := bind_eq_ok.1 h
  have hnone : Gathered [] {} := fun _ => rfl
  obtain ⟨fs, hfs, ht⟩ := gathered_foldlM hnone h
  exact ⟨root, functions, fs, hroot, hfunctions, hfs, places_of_gathered ht⟩

def declaration (name : String) : Document :=
  .object [("name", .text "VariableDeclaration"), ("attributes", .object [("name", .text name)]),
    ("children", .array [.object [("name", .text "ElementaryTypeName")]])]

def function (name : String) (parameters : List String) : Document :=
  .object [("name", .text "FunctionDefinition"), ("attributes", .object [("name", .text name)]),
    ("children", .array [.object [("name", .text "ParameterList"),
      ("children", .array (parameters.map declaration))]])]

/-- A contract with two functions of one name. -/
def overloaded : Contracts where
  byName := .ofList [("a.sol:Bank", .object [("name", .text "ContractDefinition"),
    ("children", .array [function "pay" ["to"], function "pay" ["from", "amount"]])])]

/-- The first parameter of the second function does not stand at the beginning. -/
theorem position_overloaded : (overloaded.parameters "a.sol:Bank").map (fun table =>
    ((table.mapValues (place 0)).get? "pay").map (·.map fun p => (p.name, p.position))) =
      .ok (some [("to", some 0), ("from", some 1), ("amount", some 2)]) := by
  cbv

theorem places_overloaded :
    ∃ table root functions fs, overloaded.parameters "a.sol:Bank" = .ok table ∧
      overloaded.get "a.sol:Bank" = .ok root ∧
      Pattern.search (.object [("name", .text "FunctionDefinition")]) root = .ok functions ∧
      List.Forall₂ Declares functions fs ∧ Places fs (table.mapValues (place 0)) := by
  have h : ∃ table, overloaded.parameters "a.sol:Bank" = .ok table := ⟨_, by cbv⟩
  obtain ⟨table, h⟩ := h
  exact ⟨table, (places_parameters h).imp fun _ => .imp fun _ => .imp fun _ hp => ⟨h, hp⟩⟩

end Contracts

end EvmAudit
