import Formula.Proofs.Domain.Preorder

/-!
  **Optional domains.**

  An optional domain on the right holds its content, `Nothing` and `Void`.  On the left only its
  content counts, and a union or an intersection on the right is taken apart before it.  So an
  optional domain lies in every domain that its content lies in, whether `Nothing` lies there or
  not, as long as the content is `simple`: none of the domains that are taken apart, and neither
  `Nothing` nor `Void`.  For such a content it is the least domain above the content and `Nothing`
  exactly if `Nothing` lies in the content already.
-/

namespace Formula.Domain

/-! ### Whole domains and simple domains -/

/-- Is the domain no union, no intersection and not optional?  On the right such a domain is not
    taken apart before the left side is. -/
def isWhole : Domain → Bool
  | .union _ => false
  | .intersection _ => false
  | .maybe _ => false
  | _ => true

/-- A whole domain that does not lie in every optional domain. -/
def isSimple (d : Domain) : Bool := d.isWhole && !d.isOptional

/-- What an optional domain is made of, however often it is made optional. -/
def content : Domain → Domain
  | .maybe d => d.content
  | d => d

theorem isCombined_of_isWhole {d : Domain} (h : d.isWhole = true) : d.isCombined = false := by
  cases d with
  | union _ => cases h
  | intersection _ => cases h
  | _ => rfl

theorem content_of_isWhole {d : Domain} (h : d.isWhole = true) : d.content = d := by
  cases d with
  | maybe _ => cases h
  | _ => rfl

theorem isWhole_of_isSimple {d : Domain} (h : d.isSimple = true) : d.isWhole = true := by
  rw [isSimple, Bool.and_eq_true] at h
  exact h.1

theorem isOptional_of_isSimple {d : Domain} (h : d.isSimple = true) : d.isOptional = false := by
  rw [isSimple, Bool.and_eq_true, Bool.not_eq_true'] at h
  exact h.2

/-- Induction over the unions, intersections and optional domains at the top of a domain. -/
theorem top_induction {P : Domain → Prop}
    (union : ∀ ds, (∀ d ∈ ds, P d) → P (.union ds))
    (intersection : ∀ ds, (∀ d ∈ ds, P d) → P (.intersection ds))
    (maybe : ∀ d, P d → P (.maybe d)) (whole : ∀ d, d.isWhole = true → P d) (b : Domain) :
    P b := by
  match b with
  | .union ds => exact union ds fun d _ => top_induction union intersection maybe whole d
  | .intersection ds =>
    exact intersection ds fun d _ => top_induction union intersection maybe whole d
  | .maybe d => exact maybe d (top_induction union intersection maybe whole d)
  | .literal _ => exact whole _ rfl
  | .functions _ => exact whole _ rfl
  | .list _ => exact whole _ rfl
  | .tuple _ => exact whole _ rfl
  | .sequence _ => exact whole _ rfl
  | .head _ => exact whole _ rfl
  | .symbol _ => exact whole _ rfl
  | .value _ => exact whole _ rfl
  | .dictionary _ => exact whole _ rfl
termination_by sizeOf b

/-! ### The rules for optional domains -/

/-- An optional domain on the right holds what its content holds, `Nothing` and `Void`. -/
theorem below_maybe_iff {a d : Domain} (ha : a.isCombined = false) :
    isSubdomain a (.maybe d) = true ↔
      (a == .maybe d) = true ∨ a.isOptional = true ∨ isSubdomain a d = true := by
  rw [isSubdomain.eq_def, Bool.or_eq_true]
  apply or_congr_right
  cases a with
  | union _ => cases ha
  | intersection _ => cases ha
  | _ => exact Bool.or_eq_true _ _ ▸ Iff.rfl

theorem maybe_below_maybe_iff {d e : Domain} :
    isSubdomain (.maybe d) (.maybe e) = true ↔
      (d == e) = true ∨ isSubdomain (.maybe d) e = true := by
  rw [below_maybe_iff rfl]
  apply or_congr_right
  exact or_iff_right Bool.false_ne_true

/-- An optional domain on the left counts as its content, in front of a whole domain. -/
theorem maybe_below_whole_iff {d b : Domain} (hb : b.isWhole = true) :
    isSubdomain (.maybe d) b = true ↔ isSubdomain d b = true := by
  rw [isSubdomain.eq_def]
  cases b with
  | union _ => cases hb
  | intersection _ => cases hb
  | maybe _ => cases hb
  | literal l =>
    cases l with
    | anything => exact iff_of_true rfl (isSubdomain_anything d)
    | _ => exact Iff.rfl
  | _ => exact Iff.rfl

theorem simple_below_maybe_iff {a d : Domain} (ha : a.isSimple = true) :
    isSubdomain a (.maybe d) = true ↔ isSubdomain a d = true := by
  have hwhole := isWhole_of_isSimple ha
  rw [below_maybe_iff (isCombined_of_isWhole hwhole), isOptional_of_isSimple ha]
  have hne : (a == .maybe d) = false := by
    cases a with
    | maybe _ => cases hwhole
    | _ => rfl
  simp [hne]

/-- What lies in the content lies in the optional domain. -/
theorem below_maybe_of_below {a d : Domain} (ha : a.meetless = true)
    (h : isSubdomain a d = true) : isSubdomain a (.maybe d) = true := by
  induction a, ha using meetless_induction with
  | plain a _ hplain => exact (below_maybe_iff hplain).mpr (Or.inr (Or.inr h))
  | union as _ has ih =>
    rw [union_below_iff_of_meetless has] at h ⊢
    exact fun x hx => ih x hx (h x hx)

/-! ### Optional domains on the left -/

/-- The content of an optional domain lies wherever the optional domain does. -/
theorem below_of_maybe_below {d b : Domain} (hd : d.meetless = true)
    (h : isSubdomain (.maybe d) b = true) : isSubdomain d b = true := by
  induction b using top_induction with
  | union bs ih =>
    obtain ⟨b, hb, hbelow⟩ := (below_union_iff rfl).mp h
    exact below_union_of_mem hd hb (ih b hb hbelow)
  | intersection bs ih =>
    have hall := (below_intersection_iff rfl).mp h
    exact below_intersection_of_forall hd fun b hb => ih b hb (hall b hb)
  | maybe e ih =>
    apply below_maybe_of_below hd
    rcases maybe_below_maybe_iff.mp h with hsame | hbelow
    · exact isSubdomain_of_same hsame
    · exact ih hbelow
  | whole b hb => exact (maybe_below_whole_iff hb).mp h

/-- **On the left an optional domain counts as its content,** if that is simple. -/
theorem below_iff_content_below {d : Domain} (hd : d.content.isSimple = true) (b : Domain) :
    isSubdomain d b = true ↔ isSubdomain d.content b = true := by
  induction d using top_induction generalizing b with
  | union ds _ => cases hd
  | intersection ds _ => cases hd
  | maybe d ih =>
    have hcontent : d.content.isSimple = true := hd
    have hplain := isCombined_of_isWhole (isWhole_of_isSimple hcontent)
    rw [content]
    -- the right side is taken apart alike in front of the optional domain and of the content
    induction b using top_induction with
    | union bs ihb =>
      rw [below_union_iff rfl, below_union_iff hplain]
      exact exists_congr fun b => and_congr_right (ihb b)
    | intersection bs ihb =>
      rw [below_intersection_iff rfl, below_intersection_iff hplain]
      exact forall₂_congr ihb
    | maybe e ihb =>
      rw [maybe_below_maybe_iff, simple_below_maybe_iff hcontent]
      refine (or_congr_right ihb).trans (or_iff_right_of_imp ?_)
      exact fun hsame => (ih hcontent e).mp (isSubdomain_of_same hsame)
    | whole b hb => rw [maybe_below_whole_iff hb, ih hcontent]
  | whole d hwhole => rw [content_of_isWhole hwhole]

/-! ### Named domains below others -/

/-- Among the whole domains only named ones lie above a named one. -/
theorem exists_named_of_below {x : Literal} {b : Domain} (hb : b.isWhole = true)
    (h : isSubdomain (.literal x) b = true) : ∃ r, b = .literal r ∧ x.isBelow r = true := by
  cases b with
  | literal r =>
    refine ⟨r, rfl, ?_⟩
    by_cases hr : r = .anything
    · have hall : ∀ x ∈ Literal.all, x.isBelow .anything = true := by decide +kernel
      exact hr ▸ hall x (Literal.mem_all x)
    · obtain ⟨l, hl, hbelow⟩ := (below_named_iff rfl rfl hr).mp h
      cases hl
      exact hbelow
  | union _ => cases hb
  | intersection _ => cases hb
  | maybe _ => cases hb
  | _ =>
    rw [isSubdomain.eq_def] at h
    cases h

theorem named_below_named {x r : Literal} (h : x.isBelow r = true) :
    isSubdomain (.literal x) (.literal r) = true :=
  isSubdomain_of_under rfl rfl (.named rfl h)

/-- Only `Nothing` and `Void` lie in `Nothing` and `Void`. -/
theorem isOptional_of_isBelow {x l : Literal} (hl : (Domain.literal l).isOptional = true)
    (h : x.isBelow l = true) : (Domain.literal x).isOptional = true := by
  have hall : ∀ l ∈ Literal.all, (Domain.literal l).isOptional = true →
      ∀ x ∈ Literal.all, x.isBelow l = true → (Domain.literal x).isOptional = true := by
    decide +kernel
  exact hall l (Literal.mem_all l) hl x (Literal.mem_all x) h

/-- A domain that is not taken apart on the left lies below another one if it does so in front of
    the whole domains, and in front of the optional domains that the other one lies in by name. -/
theorem below_trans_of_whole {a d : Domain} (ha : a.isCombined = false) (hd : d.isCombined = false)
    (hwhole : ∀ b, b.isWhole = true → isSubdomain d b = true → isSubdomain a b = true)
    (hmaybe : ∀ e, (d == .maybe e) = true ∨ d.isOptional = true → isSubdomain a (.maybe e) = true)
    {b : Domain} (h : isSubdomain d b = true) : isSubdomain a b = true := by
  induction b using top_induction with
  | union bs ih =>
    obtain ⟨b, hb, hbelow⟩ := (below_union_iff hd).mp h
    exact (below_union_iff ha).mpr ⟨b, hb, ih b hb hbelow⟩
  | intersection bs ih =>
    have hall := (below_intersection_iff hd).mp h
    exact (below_intersection_iff ha).mpr fun b hb => ih b hb (hall b hb)
  | maybe e ih =>
    rcases (below_maybe_iff hd).mp h with hsame | hoptional | hbelow
    · exact hmaybe e (Or.inl hsame)
    · exact hmaybe e (Or.inr hoptional)
    · exact (below_maybe_iff ha).mpr (Or.inr (Or.inr (ih hbelow)))
  | whole b hb => exact hwhole b hb h

/-- What lies in a simple named domain lies in all the domains above that. -/
theorem named_below_trans {x l : Literal} (hl : (Domain.literal l).isOptional = false)
    (hx : x.isBelow l = true) {b : Domain} (h : isSubdomain (.literal l) b = true) :
    isSubdomain (.literal x) b = true := by
  refine below_trans_of_whole rfl rfl ?_ ?_ h
  · intro b hb hbelow
    obtain ⟨r, rfl, hr⟩ := exists_named_of_below hb hbelow
    exact named_below_named (Literal.isBelow_trans hx hr)
  · rintro e (hsame | hoptional)
    · cases hsame
    · rw [hl] at hoptional
      cases hoptional

/-- **Comparison is transitive below the named domains** other than `Nothing` and `Void`, whatever
    the other two domains are. -/
theorem below_trans_of_named {x : Literal} (hx : (Domain.literal x).isOptional = false)
    {d b : Domain} (hxd : isSubdomain (.literal x) d = true) (hdb : isSubdomain d b = true) :
    isSubdomain (.literal x) b = true := by
  have hsimple : (Domain.literal x).isSimple = true := by rw [isSimple, hx]; rfl
  induction d using top_induction generalizing b with
  | union ds ih =>
    obtain ⟨y, hy, hxy⟩ := (below_union_iff rfl).mp hxd
    rcases union_below_iff.mp hdb with hsame | hall
    · cases b with
      | union bs =>
        obtain ⟨z, hz, hyz⟩ := exists_same_of_mem (show sameAll ds bs = true from hsame) hy
        exact (below_union_iff rfl).mpr ⟨z, hz, ih y hy hxy (isSubdomain_of_same hyz)⟩
      | _ => cases hsame
    · exact ih y hy hxy (hall y hy)
  | intersection ds ih =>
    have hall := (below_intersection_iff rfl).mp hxd
    by_cases hany : b = .literal .anything
    · exact hany ▸ isSubdomain_anything _
    rcases (intersection_below_iff hany).mp hdb with hsame | ⟨y, hy, hyb⟩
    · cases b with
      | intersection bs =>
        refine (below_intersection_iff rfl).mpr fun z hz => ?_
        obtain ⟨y, hy, hyz⟩ := exists_mem_same (show sameAll ds bs = true from hsame) hz
        exact ih y hy (hall y hy) (isSubdomain_of_same hyz)
      | _ => cases hsame
    · exact ih y hy (hall y hy) hyb
  | maybe d ih =>
    have hxcontent : isSubdomain (.literal x) d = true := (simple_below_maybe_iff hsimple).mp hxd
    refine below_trans_of_whole rfl rfl ?_ ?_ hdb
    · intro b hb hbelow
      exact ih hxcontent ((maybe_below_whole_iff hb).mp hbelow)
    · rintro e (hsame | hoptional)
      · have hde : isSubdomain d e = true := isSubdomain_of_same (a := d) (b := e) hsame
        exact (simple_below_maybe_iff hsimple).mpr (ih hxcontent hde)
      · cases hoptional
  | whole d hd =>
    obtain ⟨l, rfl, hxl⟩ := exists_named_of_below hd hxd
    refine named_below_trans ?_ hxl hdb
    by_contra hoptional
    rw [isOptional_of_isBelow (by simpa using hoptional) hxl] at hx
    cases hx

/-! ### Least upper bounds -/

/-- The domain lies in everything that the content and `Nothing` lie in, and in nothing else. -/
def IsLeastOptional (d : Domain) : Prop :=
  ∀ b, isSubdomain (.maybe d) b = true ↔
    isSubdomain d b = true ∧ isSubdomain (.literal .nothing) b = true

/-- What is named and lies in the optional domain lies in all the domains above that. -/
def IsTransitiveOptional (d : Domain) : Prop :=
  ∀ (x : Literal) b, isSubdomain (.literal x) (.maybe d) = true →
    isSubdomain (.maybe d) b = true → isSubdomain (.literal x) b = true

theorem exists_named_of_nothing_below {d : Domain} (hd : d.isSimple = true)
    (h : isSubdomain (.literal .nothing) d = true) :
    ∃ l, d = .literal l ∧ Literal.nothing.isBelow l = true :=
  exists_named_of_below (isWhole_of_isSimple hd) h

/-- Where `Nothing` lies in the content it lies in all the domains above the content. -/
theorem optional_below_of_nothing_below {d : Domain} (hd : d.isSimple = true)
    (hnothing : isSubdomain (.literal .nothing) d = true) {x : Literal}
    (hx : (Domain.literal x).isOptional = true) {b : Domain} (h : isSubdomain d b = true) :
    isSubdomain (.literal x) b = true := by
  obtain ⟨l, rfl, hl⟩ := exists_named_of_nothing_below hd hnothing
  have hoptional : ∀ x ∈ Literal.all, (Domain.literal x).isOptional = true →
      x.isBelow .nothing = true := by decide +kernel
  exact named_below_trans (isOptional_of_isSimple hd)
    (Literal.isBelow_trans (hoptional x (Literal.mem_all x) hx) hl) h

theorem hasNaN_content {d : Domain} (h : d.hasNaN = false) : d.content.hasNaN = false := by
  induction d using top_induction with
  | union ds _ => exact h
  | intersection ds _ => exact h
  | maybe d ih => exact ih h
  | whole d hd => rwa [content_of_isWhole hd]

theorem content_below_self {d : Domain} (hnan : d.hasNaN = false) :
    isSubdomain d.content d.content = true :=
  isSubdomain_of_same (same_self (hasNaN_content hnan))

/-- An optional domain of simple content is the least one above the content and `Nothing` exactly
    if `Nothing` lies in the content. -/
theorem isLeastOptional_iff {d : Domain} (hd : d.content.isSimple = true)
    (hnan : d.hasNaN = false) :
    IsLeastOptional d ↔ isSubdomain (.literal .nothing) d.content = true := by
  have hleft : ∀ b, isSubdomain (.maybe d) b = true ↔ isSubdomain d.content b = true :=
    below_iff_content_below (d := .maybe d) hd
  constructor
  · intro h
    exact ((h d.content).mp ((hleft d.content).mpr (content_below_self hnan))).2
  · intro hnothing b
    rw [hleft, below_iff_content_below hd]
    exact (and_iff_left_of_imp (optional_below_of_nothing_below hd hnothing rfl)).symm

/-- What is named lies above an optional domain of simple content exactly if `Nothing` lies in the
    content. -/
theorem isTransitiveOptional_iff {d : Domain} (hd : d.content.isSimple = true)
    (hnan : d.hasNaN = false) :
    IsTransitiveOptional d ↔ isSubdomain (.literal .nothing) d.content = true := by
  have hleft : ∀ b, isSubdomain (.maybe d) b = true ↔ isSubdomain d.content b = true :=
    below_iff_content_below (d := .maybe d) hd
  constructor
  · intro h
    have hnothing : isSubdomain (.literal .nothing) (.maybe d) = true :=
      (below_maybe_iff rfl).mpr (Or.inr (Or.inl rfl))
    exact h .nothing d.content hnothing ((hleft d.content).mpr (content_below_self hnan))
  · intro hnothing x b hx hb
    cases hoptional : (Domain.literal x).isOptional with
    | true => exact optional_below_of_nothing_below hd hnothing hoptional ((hleft b).mp hb)
    | false => exact below_trans_of_named hoptional hx hb

/-- An optional domain and the domains above it.  Below the optional domain lies what is below its
    content; a simple content lies in the same domains as the optional domain does; and the optional
    domain is the least one above the content and `Nothing`, with all that is named below it,
    exactly if `Nothing` lies in the content.  Only `Nothing` and `Void` can lie in an optional
    domain and not in one above it. -/
theorem maybe_bounds (d b : Domain) :
    (d.meetless = true → isSubdomain (.maybe d) b = true → isSubdomain d b = true) ∧
    (b.isWhole = true → (isSubdomain (.maybe d) b = true ↔ isSubdomain d b = true)) ∧
    (d.content.isSimple = true →
      (isSubdomain (.maybe d) b = true ↔ isSubdomain d b = true) ∧
      (d.hasNaN = false →
        (IsLeastOptional d ↔ isSubdomain (.literal .nothing) d.content = true) ∧
        (IsTransitiveOptional d ↔ isSubdomain (.literal .nothing) d.content = true))) ∧
    ∀ x : Literal, x ≠ .nothing → x ≠ .void → isSubdomain (.literal x) (.maybe d) = true →
      isSubdomain (.maybe d) b = true → isSubdomain (.literal x) b = true := by
  refine ⟨below_of_maybe_below, maybe_below_whole_iff, fun hd => ⟨?_, fun hnan => ?_⟩, ?_⟩
  · rw [below_iff_content_below hd, below_iff_content_below (d := .maybe d) hd]
    rfl
  · exact ⟨isLeastOptional_iff hd hnan, isTransitiveOptional_iff hd hnan⟩
  · intro x hnothing hvoid
    refine below_trans_of_named ?_
    cases x with
    | nothing => exact absurd rfl hnothing
    | void => exact absurd rfl hvoid
    | _ => rfl

/-- Optional integers lie in the real numbers, with `Nothing`; optional sets lie in the sets,
    without. -/
theorem maybe_bounds_integers_sets :
    IsLeastOptional (.literal .integers) ∧ IsTransitiveOptional (.literal .integers) ∧
    isSubdomain (.maybe (.maybe (.literal .sets))) (.literal .collections) = true ∧
    isSubdomain (.literal .strings) (.union [.literal .values, .literal .sets]) = true := by
  have hintegers := ((maybe_bounds (.literal .integers) (.literal .realNumbers)).2.2.1 rfl).2 rfl
  have hsets := (maybe_bounds (.maybe (.literal .sets)) (.literal .collections)).2.2.1 rfl
  have hstrings := (maybe_bounds (.union [.literal .strings, .literal .lists])
    (.union [.literal .values, .literal .sets])).2.2.2 .strings (by decide) (by decide)
  exact ⟨hintegers.1.mpr (by decide +kernel), hintegers.2.mpr (by decide +kernel),
    hsets.1.mpr (by decide +kernel), hstrings (by decide +kernel) (by decide +kernel)⟩

/-- The optional sets lie in the sets, but `Nothing`, which is one of them, does not.  And the
    optional strings and lists do not lie in the strings and lists, though both those and
    `Nothing` do. -/
theorem maybe_not_least :
    (isSubdomain (.maybe (.literal .sets)) (.literal .sets) = true ∧
      isSubdomain (.literal .nothing) (.maybe (.literal .sets)) = true ∧
      isSubdomain (.literal .nothing) (.literal .sets) = false) ∧
    isSubdomain (.union [.literal .strings, .literal .lists])
      (.union [.literal .strings, .literal .lists]) = true ∧
    isSubdomain (.literal .nothing) (.union [.literal .strings, .literal .lists]) = true ∧
    isSubdomain (.maybe (.union [.literal .strings, .literal .lists]))
      (.union [.literal .strings, .literal .lists]) = false := by
  decide +kernel

end Formula.Domain
