import Formula.Domain.Expression
import Formula.Proofs.Domain.Equality
import Formula.Proofs.Domain.Preorder

/-!
  **Domains are read back from their expressions.**

  A domain is written as one expression, but it may be read from several: a name may be given as a
  string.  So an expression is read as a domain if and only if the domain is written as that
  expression with its strings replaced by symbols.  What stands in a `Value` is no part of the
  notation and stays as it is.

  Only domains of functions without a result have no expression that they are read from.
-/

namespace Formula

/-! ### Names -/

theorem Literal.ofName_eq_ok_iff {name : String} {l : Literal} :
    Literal.ofName name = .ok l ↔ l.name = name := by
  have htable : ∀ l ∈ Literal.all, Literal.ofName l.name = .ok l := by decide +kernel
  constructor
  · intro h
    unfold Literal.ofName at h
    split at h
    · rename_i l' hfind
      obtain rfl : l' = l := by simpa using h
      simpa using List.find?_some hfind
    · cases h
  · rintro rfl
    exact htable l (mem_all l)

theorem DomainConstructor.ofName_eq_ok_iff {name : String} {c : DomainConstructor} :
    DomainConstructor.ofName name = .ok c ↔ c.name = name := by
  constructor
  · intro h
    unfold DomainConstructor.ofName at h
    split at h
    · rename_i c' hfind
      obtain rfl : c' = c := by simpa using h
      simpa using List.find?_some hfind
    · cases h
  · rintro rfl
    cases c <;> rfl

theorem exists_of_map_ok {ε β γ : Type} {f : β → γ} {x : Except ε β} {c : γ}
    (h : x.map f = .ok c) : ∃ b, x = .ok b ∧ f b = c := by
  cases x with
  | error e => cases h
  | ok b =>
    cases h
    exact ⟨b, rfl, rfl⟩

mutual

theorem Tree.erase_expr (e : Expr) : e.erase = e := by
  match e with
  | .number value => rfl
  | .symbol name => rfl
  | .text value => rfl
  | .call () head ops => exact congrArg (Tree.call () head) (Tree.mapLabelsAll_expr ops)
  | .applied () head ops =>
    exact congrArg₂ (Tree.applied ()) (Tree.erase_expr head) (Tree.mapLabelsAll_expr ops)

theorem Tree.mapLabelsAll_expr (ops : List Expr) : mapLabelsAll (fun _ => ()) ops = ops := by
  match ops with
  | [] => rfl
  | op :: rest =>
    exact congrArg₂ List.cons (Tree.erase_expr op) (Tree.mapLabelsAll_expr rest)

end

/-! ### Domains that have an expression -/

namespace Domain

mutual

/-- Has every domain of functions a result? -/
def hasResults : Domain → Bool
  | .functions ds => !ds.isEmpty && allHaveResults ds
  | .literal _ => true
  | .head _ => true
  | .symbol _ => true
  | .value _ => true
  | .tuple ds => allHaveResults ds
  | .union ds => allHaveResults ds
  | .intersection ds => allHaveResults ds
  | .list d => d.hasResults
  | .maybe d => d.hasResults
  | .sequence d => d.hasResults
  | .dictionary d => d.hasResults

def allHaveResults : List Domain → Bool
  | [] => true
  | d :: ds => d.hasResults && allHaveResults ds

end

mutual

/-- The expression with symbols in place of its strings, except in values. -/
def unquoted : Expr → Expr
  | .text name => .symbol name
  | .call label name ops =>
    if name = "Value" then .call label name ops else .call label name (unquotedAll ops)
  | e => e

def unquotedAll : List Expr → List Expr
  | [] => []
  | op :: rest => unquoted op :: unquotedAll rest

end

/-! ### Reading what is written -/

mutual

theorem ofTree_toExpr {d : Domain} (h : d.hasResults = true) : ofTree d.toExpr = .ok d := by
  match d with
  | .literal l => exact congrArg (Except.map Domain.literal) (Literal.ofName_eq_ok_iff.mpr rfl)
  | .head name => rfl
  | .symbol name => rfl
  | .value e => exact congrArg (Except.ok ∘ Domain.value) e.erase_expr
  | .functions [] => cases h
  | .functions (d :: ds) =>
    exact congrArg (Except.map Domain.functions) (@ofTrees_toExprs (d :: ds) h)
  | .tuple ds => exact congrArg (Except.map Domain.tuple) (@ofTrees_toExprs ds h)
  | .union ds => exact congrArg (Except.map Domain.union) (@ofTrees_toExprs ds h)
  | .intersection ds => exact congrArg (Except.map Domain.intersection) (@ofTrees_toExprs ds h)
  | .list d => exact congrArg (Except.map Domain.list) (ofTree_toExpr (d := d) h)
  | .maybe d => exact congrArg (Except.map Domain.maybe) (ofTree_toExpr (d := d) h)
  | .sequence d => exact congrArg (Except.map Domain.sequence) (ofTree_toExpr (d := d) h)
  | .dictionary d => exact congrArg (Except.map Domain.dictionary) (ofTree_toExpr (d := d) h)

theorem ofTrees_toExprs {ds : List Domain} (h : allHaveResults ds = true) :
    ofTrees (toExprs ds) = .ok ds := by
  match ds with
  | [] => rfl
  | d :: ds =>
    rw [allHaveResults, Bool.and_eq_true] at h
    rw [toExprs, ofTrees, ofTree_toExpr h.1, ofTrees_toExprs h.2]
    rfl

end

/-! ### Writing what is read -/

/-- The domain is written as the expression, but for the strings in it. -/
structure IsWrittenAs (d : Domain) (e : Expr) : Prop where
  results : d.hasResults = true
  toExpr_eq : d.toExpr = unquoted e
  hasNaN_eq : d.hasNaN = e.hasNaN

/-- The domains are written as the expressions. -/
structure AreWrittenAs (ds : List Domain) (es : List Expr) : Prop where
  results : allHaveResults ds = true
  toExprs_eq : toExprs ds = unquotedAll es
  anyNaN_eq : anyNaN ds = Tree.anyNaN es

theorem exists_of_single {c : DomainConstructor} {ops : List Expr} {e : Expr}
    (h : single c ops = .ok e) : ops = [e] := by
  unfold single at h
  split at h
  · cases h
    rfl
  · cases h

theorem exists_of_singleName {c : DomainConstructor} {ops : List Expr} {name : String}
    (h : singleName c ops = .ok name) : ops = [.symbol name] ∨ ops = [.text name] := by
  unfold singleName at h
  split at h
  · cases h
    exact Or.inl rfl
  · cases h
    exact Or.inr rfl
  · cases h
  · cases h

/-- A domain that is built of domains is written as the call of its constructor. -/
theorem AreWrittenAs.call {ds : List Domain} {ops : List Expr} (h : AreWrittenAs ds ops)
    {c : DomainConstructor} (hvalue : c ≠ .value) {d : Domain}
    (hresults : d.hasResults = allHaveResults ds)
    (hexpr : d.toExpr = .call () c.name (toExprs ds)) (hNaN : d.hasNaN = anyNaN ds) :
    d.IsWrittenAs (.call () c.name ops) where
  results := hresults.trans h.results
  toExpr_eq := by
    have hname : c.name ≠ "Value" := by
      cases c with
      | value => exact absurd rfl hvalue
      | _ => decide
    rw [hexpr, h.toExprs_eq, unquoted, if_neg hname]
  hasNaN_eq := hNaN.trans h.anyNaN_eq

mutual

theorem isWrittenAs_of_ofTree {e : Expr} {d : Domain} (h : ofTree e = .ok d) :
    d.IsWrittenAs e := by
  match e with
  | .number _ => cases h
  | .applied _ _ _ => cases h
  | .symbol _ =>
    obtain ⟨l, hname, rfl⟩ := exists_of_map_ok h
    obtain rfl := Literal.ofName_eq_ok_iff.mp hname
    exact ⟨rfl, rfl, rfl⟩
  | .text _ =>
    obtain ⟨l, hname, rfl⟩ := exists_of_map_ok h
    obtain rfl := Literal.ofName_eq_ok_iff.mp hname
    exact ⟨rfl, rfl, rfl⟩
  | .call () name ops =>
    cases hconstructor : DomainConstructor.ofName name with
    | error defect => simp [ofTree, hconstructor] at h
    | ok c =>
      obtain rfl := DomainConstructor.ofName_eq_ok_iff.mp hconstructor
      cases c with
      | functions =>
        match ops with
        | [] => cases h
        | op :: rest =>
          obtain ⟨ds, hds, rfl⟩ :=
            exists_of_map_ok (f := Domain.functions) (x := ofTrees (op :: rest)) h
          have hops := areWrittenAs_of_ofTrees hds
          cases ds with
          | nil => cases hops.toExprs_eq
          | cons d ds => exact hops.call (by decide) rfl rfl rfl
      | tuple =>
        obtain ⟨ds, hds, rfl⟩ := exists_of_map_ok (f := Domain.tuple) (x := ofTrees ops) h
        exact (areWrittenAs_of_ofTrees hds).call (by decide) rfl rfl rfl
      | union =>
        obtain ⟨ds, hds, rfl⟩ := exists_of_map_ok (f := Domain.union) (x := ofTrees ops) h
        exact (areWrittenAs_of_ofTrees hds).call (by decide) rfl rfl rfl
      | intersection =>
        obtain ⟨ds, hds, rfl⟩ := exists_of_map_ok (f := Domain.intersection) (x := ofTrees ops) h
        exact (areWrittenAs_of_ofTrees hds).call (by decide) rfl rfl rfl
      | list =>
        obtain ⟨content, hcontent, rfl⟩ :=
          exists_of_map_ok (f := Domain.list) (x := ofSingle .list ops) h
        exact (areWrittenAs_of_ofSingle hcontent).call (by decide) (Bool.and_true _).symm rfl
          (Bool.or_false _).symm
      | maybe =>
        obtain ⟨content, hcontent, rfl⟩ :=
          exists_of_map_ok (f := Domain.maybe) (x := ofSingle .maybe ops) h
        exact (areWrittenAs_of_ofSingle hcontent).call (by decide) (Bool.and_true _).symm rfl
          (Bool.or_false _).symm
      | sequence =>
        obtain ⟨content, hcontent, rfl⟩ :=
          exists_of_map_ok (f := Domain.sequence) (x := ofSingle .sequence ops) h
        exact (areWrittenAs_of_ofSingle hcontent).call (by decide) (Bool.and_true _).symm rfl
          (Bool.or_false _).symm
      | dictionary =>
        obtain ⟨content, hcontent, rfl⟩ :=
          exists_of_map_ok (f := Domain.dictionary) (x := ofSingle .dictionary ops) h
        exact (areWrittenAs_of_ofSingle hcontent).call (by decide) (Bool.and_true _).symm rfl
          (Bool.or_false _).symm
      | head =>
        obtain ⟨name, hname, rfl⟩ :=
          exists_of_map_ok (f := Domain.head) (x := singleName .head ops) h
        rcases exists_of_singleName hname with rfl | rfl
        · exact ⟨rfl, rfl, rfl⟩
        · exact ⟨rfl, rfl, rfl⟩
      | symbol =>
        obtain ⟨name, hname, rfl⟩ :=
          exists_of_map_ok (f := Domain.symbol) (x := singleName .symbol ops) h
        rcases exists_of_singleName hname with rfl | rfl
        · exact ⟨rfl, rfl, rfl⟩
        · exact ⟨rfl, rfl, rfl⟩
      | value =>
        have hmap : (single .value ops).map (fun e => Domain.value e.erase) = .ok d := h
        obtain ⟨content, hcontent, rfl⟩ := exists_of_map_ok hmap
        obtain rfl := exists_of_single hcontent
        rw [content.erase_expr]
        exact ⟨rfl, rfl, (Bool.or_false _).symm⟩

theorem areWrittenAs_of_ofTrees {ops : List Expr} {ds : List Domain}
    (h : ofTrees ops = .ok ds) : AreWrittenAs ds ops := by
  match ops with
  | [] =>
    cases h
    exact ⟨rfl, rfl, rfl⟩
  | op :: rest =>
    rw [ofTrees] at h
    cases hop : ofTree op with
    | error defect =>
      rw [hop] at h
      cases h
    | ok d =>
      cases hrest : ofTrees rest with
      | error defect =>
        rw [hop, hrest] at h
        cases h
      | ok ds =>
        rw [hop, hrest] at h
        cases h
        have hfirst := isWrittenAs_of_ofTree hop
        have hothers := areWrittenAs_of_ofTrees hrest
        refine ⟨?_, ?_, ?_⟩
        · rw [allHaveResults, hfirst.results, hothers.results, Bool.and_true]
        · rw [toExprs, unquotedAll, hfirst.toExpr_eq, hothers.toExprs_eq]
        · rw [anyNaN, Tree.anyNaN, hfirst.hasNaN_eq, hothers.anyNaN_eq]

theorem areWrittenAs_of_ofSingle {c : DomainConstructor} {ops : List Expr} {d : Domain}
    (h : ofSingle c ops = .ok d) : AreWrittenAs [d] ops := by
  match ops with
  | [] => cases h
  | [op] =>
    have hop := isWrittenAs_of_ofTree (e := op) h
    refine ⟨?_, ?_, ?_⟩
    · rw [allHaveResults, hop.results, allHaveResults, Bool.and_true]
    · rw [toExprs, unquotedAll, hop.toExpr_eq, toExprs, unquotedAll]
    · rw [anyNaN, Tree.anyNaN, hop.hasNaN_eq, anyNaN, Tree.anyNaN]
  | _ :: _ :: _ => cases h

end

/-! ### Strings for names -/

theorem singleName_unquoted (c : DomainConstructor) (ops : List Expr) :
    singleName c (unquotedAll ops) = singleName c ops := by
  match ops with
  | [] => rfl
  | [.number _] => rfl
  | [.symbol _] => rfl
  | [.text _] => rfl
  | [.applied _ _ _] => rfl
  | [.call _ name _] =>
    rw [unquotedAll, unquoted]
    split
    · rfl
    · rfl
  | _ :: _ :: _ => simp [unquotedAll, singleName]

mutual

/-- A name may be a symbol or a string. -/
theorem ofTree_unquoted (e : Expr) : ofTree (unquoted e) = ofTree e := by
  match e with
  | .number _ => rfl
  | .symbol _ => rfl
  | .text _ => rfl
  | .applied _ _ _ => rfl
  | .call () name ops =>
    rw [unquoted]
    split
    · rfl
    · rename_i hname
      cases hconstructor : DomainConstructor.ofName name with
      | error defect => simp only [ofTree, hconstructor]
      | ok c =>
        obtain rfl := DomainConstructor.ofName_eq_ok_iff.mp hconstructor
        have hmany := ofTrees_unquoted ops
        have hsingle := ofSingle_unquoted c ops
        have hone := singleName_unquoted c ops
        cases c with
        | value => exact absurd rfl hname
        | functions => 
          cases ops with
          | nil => rfl
          | cons op rest => exact congrArg (Except.map Domain.functions) hmany
        | tuple => exact congrArg (Except.map Domain.tuple) hmany
        | union => exact congrArg (Except.map Domain.union) hmany
        | intersection => exact congrArg (Except.map Domain.intersection) hmany
        | list => exact congrArg (Except.map Domain.list) hsingle
        | maybe => exact congrArg (Except.map Domain.maybe) hsingle
        | sequence => exact congrArg (Except.map Domain.sequence) hsingle
        | dictionary => exact congrArg (Except.map Domain.dictionary) hsingle
        | head => exact congrArg (Except.map Domain.head) hone
        | symbol => exact congrArg (Except.map Domain.symbol) hone

theorem ofTrees_unquoted (ops : List Expr) : ofTrees (unquotedAll ops) = ofTrees ops := by
  match ops with
  | [] => rfl
  | op :: rest => rw [unquotedAll, ofTrees, ofTrees, ofTree_unquoted op, ofTrees_unquoted rest]

theorem ofSingle_unquoted (c : DomainConstructor) (ops : List Expr) :
    ofSingle c (unquotedAll ops) = ofSingle c ops := by
  match ops with
  | [] => rfl
  | [op] => exact ofTree_unquoted op
  | _ :: _ :: _ => rfl

end

theorem ofTree_eq_ok_iff {e : Expr} {d : Domain} :
    ofTree e = .ok d ↔ d.hasResults = true ∧ d.toExpr = unquoted e := by
  constructor
  · intro h
    have hwritten := isWrittenAs_of_ofTree h
    exact ⟨hwritten.results, hwritten.toExpr_eq⟩
  · rintro ⟨hresults, hexpr⟩
    rw [← ofTree_unquoted, ← hexpr]
    exact ofTree_toExpr hresults

/-! ### Equal domains -/

mutual

/-- Equal domains are written as equal expressions. -/
theorem toExpr_same {a b : Domain} (h : same a b = true) :
    a.hasResults = b.hasResults ∧ Tree.same a.toExpr b.toExpr = true := by
  match a, b with
  | .literal l, .literal r =>
    obtain rfl : l = r := eq_of_beq h
    exact ⟨rfl, by simp [toExpr, Tree.same]⟩
  | .head x, .head y =>
    obtain rfl : x = y := eq_of_beq h
    exact ⟨rfl, by simp [toExpr, Tree.same, Tree.sameAll]⟩
  | .symbol x, .symbol y =>
    obtain rfl : x = y := eq_of_beq h
    exact ⟨rfl, by simp [toExpr, Tree.same, Tree.sameAll]⟩
  | .value x, .value y =>
    have hxy : Tree.same x y = true := h
    exact ⟨rfl, by simp [toExpr, Tree.same, Tree.sameAll, hxy]⟩
  | .functions [], .functions [] => exact ⟨rfl, rfl⟩
  | .functions (a :: as), .functions (b :: bs) =>
    exact @toExprs_same (a :: as) (b :: bs) h
  | .tuple as, .tuple bs => exact @toExprs_same as bs h
  | .union as, .union bs => exact @toExprs_same as bs h
  | .intersection as, .intersection bs => exact @toExprs_same as bs h
  | .list a, .list b =>
    obtain ⟨hresults, hexpr⟩ := toExpr_same (a := a) (b := b) h
    exact ⟨hresults, by simp [toExpr, Tree.same, Tree.sameAll, hexpr]⟩
  | .maybe a, .maybe b =>
    obtain ⟨hresults, hexpr⟩ := toExpr_same (a := a) (b := b) h
    exact ⟨hresults, by simp [toExpr, Tree.same, Tree.sameAll, hexpr]⟩
  | .sequence a, .sequence b =>
    obtain ⟨hresults, hexpr⟩ := toExpr_same (a := a) (b := b) h
    exact ⟨hresults, by simp [toExpr, Tree.same, Tree.sameAll, hexpr]⟩
  | .dictionary a, .dictionary b =>
    obtain ⟨hresults, hexpr⟩ := toExpr_same (a := a) (b := b) h
    exact ⟨hresults, by simp [toExpr, Tree.same, Tree.sameAll, hexpr]⟩

theorem toExprs_same {as bs : List Domain} (h : sameAll as bs = true) :
    allHaveResults as = allHaveResults bs ∧
      Tree.sameAll (toExprs as) (toExprs bs) = true := by
  match as, bs with
  | [], [] => exact ⟨rfl, rfl⟩
  | a :: as, b :: bs =>
    rw [sameAll, Bool.and_eq_true] at h
    obtain ⟨hresults, hexpr⟩ := toExpr_same h.1
    obtain ⟨hothers, hexprs⟩ := toExprs_same h.2
    rw [allHaveResults, allHaveResults, hresults, hothers, toExprs, toExprs, Tree.sameAll, hexpr,
      hexprs]
    exact ⟨rfl, rfl⟩

end

/-! ### Reading and writing -/

/-- What the expression is read as is equal to the domain. -/
def IsReadFrom (d : Domain) (e : Expr) : Prop := ∃ d', ofTree e = .ok d' ∧ (d' == d) = true

theorem hasNaN_toExpr {d : Domain} (h : d.hasResults = true) : d.toExpr.hasNaN = d.hasNaN :=
  (isWrittenAs_of_ofTree (ofTree_toExpr h)).hasNaN_eq.symm

theorem isReadFrom_of_ofTree {e : Expr} {d : Domain} (h : ofTree e = .ok d)
    (hNaN : e.hasNaN = false) : d.IsReadFrom e := by
  have hwritten := isWrittenAs_of_ofTree h
  exact ⟨d, h, same_self (hwritten.hasNaN_eq.trans hNaN)⟩

/-- A domain that equals what is read is written as an equal expression. -/
theorem IsReadFrom.written {d : Domain} {e : Expr} (h : d.IsReadFrom e) :
    d.hasResults = true ∧ d.hasNaN = false ∧ (d.toExpr == unquoted e) = true := by
  obtain ⟨d', hd', hsame⟩ := h
  have hwritten := isWrittenAs_of_ofTree hd'
  obtain ⟨hresults, hexpr⟩ := toExpr_same hsame
  have hd : d.hasResults = true := hresults ▸ hwritten.results
  refine ⟨hd, ?_, ?_⟩
  · rw [← hasNaN_toExpr hd]
    exact Tree.hasNaN_of_same hexpr
  · rw [← hwritten.toExpr_eq]
    exact Tree.same_symm hexpr

/-- **Domains are read back, and what is read is written again but for the strings in it.**  A
    domain with a NaN in it is read as well, but it is not equal to itself. -/
theorem isReadFrom_toExpr :
    (∀ d : Domain, d.hasResults = true → d.hasNaN = false →
      ofTree d.toExpr = .ok d ∧ d.IsReadFrom d.toExpr) ∧
    (∀ (e : Expr) (d : Domain), e.hasNaN = false → ofTree e = .ok d ∨ d.IsReadFrom e →
      d.hasResults = true ∧ d.hasNaN = false ∧ (d.toExpr == unquoted e) = true) ∧
    ∀ (e : Expr) (d : Domain),
      ofTree e = .ok d ↔ d.hasResults = true ∧ d.toExpr = unquoted e := by
  refine ⟨?_, ?_, fun e d => ofTree_eq_ok_iff⟩
  · intro d hresults hNaN
    have hread := ofTree_toExpr hresults
    exact ⟨hread, d, hread, same_self hNaN⟩
  · intro e d hNaN hread
    rcases hread with hread | hread
    · exact (isReadFrom_of_ofTree hread hNaN).written
    · exact hread.written

/-- Names may be strings, and the string in a value is left alone. -/
theorem isReadFrom_functions :
    let e : Expr := .call () "Functions"
      [.call () "Maybe" [.text "Integers"],
        .call () "Union" [.call () "Head" [.text "Sin"], .call () "Value" [.text "Integers"]]]
    let d : Domain :=
      .functions [.maybe (.literal .integers), .union [.head "Sin", .value (.text "Integers")]]
    ofTree e = .ok d ∧ d.hasResults = true ∧ (d.toExpr == unquoted e) = true ∧
      ofTree d.toExpr = .ok d := by
  intro e d
  have hread : ofTree e = .ok d := rfl
  obtain ⟨hresults, hNaN, hexpr⟩ := isReadFrom_toExpr.2.1 e d (by decide) (Or.inl hread)
  exact ⟨hread, hresults, hexpr, (isReadFrom_toExpr.1 d hresults hNaN).1⟩

end Domain

end Formula
