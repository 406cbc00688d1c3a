import Smi.Proofs.ObjectTree.Tidy

/-!
# Which scalars are accepted

A tree admits a provider whose name is free, at whose identifier none is attached, and at and above
whose identifier no value stands. Registering asks for one thing more, which it shares with writing
a value: no node may stand below the identifier. So a scalar is accepted below another one, but not
above it.
-/

namespace Smi.ObjectTree

variable {tree : ObjectTree} {id : NodeId} {node : Node} {oid : Oid} {spec other : ProviderSpec}

/-- Whether registering a provider succeeds. -/
def Accepts (tree : ObjectTree) (spec : ProviderSpec) : Prop :=
  ∃ id after, tree.register spec = (.ok id, after)

/-- Whether the name of a provider is free, none is attached at its identifier, and no value stands
there or above. -/
structure Admits (tree : ObjectTree) (spec : ProviderSpec) : Prop where
  name : tree.provider? spec.name = none
  provider : (tree.get? spec.oid).bind Node.provider = none
  values : ∀ above : Oid, above.arcs <+: spec.oid.arcs → tree.valueAt? above = none

/-! ### Values at an identifier and above it -/

/-- No value stands at an identifier or above it if none stands above it and none at it. -/
theorem forall_valueAt?_iff :
    (∀ above : Oid, above.arcs <+: oid.arcs → tree.valueAt? above = none) ↔
      tree.Uncovered oid ∧ tree.valueAt? oid = none := by
  simp only [valueAt?_eq, Option.map_eq_none_iff]
  constructor
  · intro h
    exact ⟨fun count _ => h (oid.take count) (List.take_prefix _ _), h oid List.prefix_rfl⟩
  · rintro ⟨huncovered, hself⟩ above habove
    by_cases hcell : (tree.contentAt above).cell = none
    · exact hcell
    · rwa [huncovered.eq_of_above habove hcell]

/-- Where no value stands on the way, a value may be stored at the end of arcs, or else it is the
end that is refused. -/
theorem Linked.checkSlotFrom_of_uncovered (hlinked : tree.Linked) {rest : List Nat}
    (hnode : tree.node? id = some node) (harcs : oid.arcs = node.address.arcs ++ rest)
    (huncovered : tree.UncoveredFrom oid node.address.length) :
    tree.checkSlotFrom id rest = .ok () ∨
      tree.checkSlotFrom id rest = .error (.valueNodeConflict oid.dotted) := by
  induction rest generalizing id node with
  | nil =>
    obtain rfl : oid = node.address := Oid.ext (by rw [harcs, List.append_nil])
    cases hleaf : node.isLeaf <;> simp [checkSlotFrom, hnode, hleaf]
  | cons arc rest ih =>
    have hlength : node.address.length < oid.length := by simp [Oid.length, harcs]
    obtain ⟨hself, hbehind⟩ := (uncoveredFrom_iff hlength).mp huncovered
    have htake : oid.take node.address.length = node.address :=
      Oid.ext (by simp [Oid.take, harcs, Oid.length])
    have hcell : node.cell = none := by
      rw [htake, hlinked.contentAt_address hnode] at hself
      exact hself
    cases hchild : node.child? arc with
    | none => simp [checkSlotFrom, hnode, hcell, hchild]
    | some child =>
      obtain ⟨below, hbelow, _, haddress⟩ := hlinked.child hnode hchild
      have hbelowLength : below.address.length = node.address.length + 1 := by
        simp [Oid.length, haddress]
      rw [← hbelowLength] at hbehind
      have hrest := ih hbelow (by rw [harcs, haddress]; simp) hbehind
      simpa [checkSlotFrom, hnode, hcell, hchild] using hrest

/-- An identifier above which no value stands is refused itself, if it is refused. -/
theorem Linked.checkSlot_of_uncovered (hlinked : tree.Linked) (huncovered : tree.Uncovered oid)
    (hends : ¬tree.Ends oid) : tree.checkSlot oid = .error (.valueNodeConflict oid.dotted) := by
  obtain ⟨root, hroot, haddress, _⟩ := hlinked.root
  have hempty : root.address.arcs = [] := by rw [haddress]; rfl
  have harcs : oid.arcs = root.address.arcs ++ oid.arcs := by rw [hempty, List.nil_append]
  have hfrom : tree.UncoveredFrom oid root.address.length := fun count _ => huncovered count
  rcases hlinked.checkSlotFrom_of_uncovered hroot harcs hfrom with hok | herror
  · exact absurd (hlinked.checkSlot_eq_ok_iff.mp hok).2 hends
  · exact herror

/-! ### Accepting a provider -/

/-- A provider can be attached if it is admitted and no node stands below its identifier. -/
theorem Linked.checkAttach_iff (hlinked : tree.Linked) :
    tree.checkAttach spec = .ok () ↔ tree.Admits spec ∧ tree.Ends spec.oid := by
  have hprovider : (tree.get? spec.oid).bind Node.provider = none ↔
      ∀ node, tree.get? spec.oid = some node → node.provider = none := Option.bind_eq_none_iff
  have hname : tree.provider? spec.name = none ↔ tree.registration? spec.name = none :=
    Option.map_eq_none_iff
  rw [checkAttach_eq_ok_iff, hlinked.checkSlot_eq_ok_iff, ← hname, ← hprovider]
  constructor
  · rintro ⟨hfree, hbare, ⟨huncovered, hends⟩, hvalue⟩
    exact ⟨⟨hfree, hbare, forall_valueAt?_iff.mpr ⟨huncovered, hvalue⟩⟩, hends⟩
  · rintro ⟨⟨hfree, hbare, hvalues⟩, hends⟩
    obtain ⟨huncovered, hvalue⟩ := forall_valueAt?_iff.mp hvalues
    exact ⟨hfree, hbare, ⟨huncovered, hends⟩, hvalue⟩

/-- An admitted provider below whose identifier a node stands cannot be attached. -/
theorem Linked.checkAttach_of_not_ends (hlinked : tree.Linked) (hadmits : tree.Admits spec)
    (hends : ¬tree.Ends spec.oid) :
    tree.checkAttach spec = .error (.valueNodeConflict spec.oid.dotted) := by
  have hname : tree.registration? spec.name = none := Option.map_eq_none_iff.mp hadmits.name
  have hprovider : ((tree.get? spec.oid).bind fun node => node.provider.map (node.address, ·)) =
      none := by
    have hbare := hadmits.provider
    rw [Option.bind_eq_none_iff] at hbare ⊢
    exact fun node hnode => Option.map_eq_none_iff.mpr (hbare node hnode)
  have hslot := hlinked.checkSlot_of_uncovered (forall_valueAt?_iff.mp hadmits.values).1 hends
  rw [checkAttach, hname, hprovider, hslot]
  rfl

/-- A scalar is registered as it is. -/
theorem register_scalar_eq (tree : ObjectTree) (scalar : ScalarProvider) :
    tree.register (.scalar scalar) =
      match tree.checkAttach (.scalar scalar) with
      | .ok _ => (.ok (tree.attach (.scalar scalar)).2, (tree.attach (.scalar scalar)).1)
      | .error e => (.error e, tree) := by
  have hsettle : tree.settle (.scalar scalar) = .ok (.scalar scalar) := rfl
  rw [register, hsettle]
  cases hcheck : tree.checkAttach (.scalar scalar) with
  | ok =>
    simp only [bind, Except.bind, hcheck]
    rfl
  | error e => simp only [bind, Except.bind, hcheck]

/-- A scalar is accepted if nothing is in its way and nothing stands below it. -/
theorem Linked.accepts_scalar_iff (hlinked : tree.Linked) {scalar : ScalarProvider} :
    tree.Accepts (.scalar scalar) ↔ tree.Admits (.scalar scalar) ∧ tree.Ends scalar.oid := by
  have hcheck : tree.checkAttach (.scalar scalar) = .ok () ↔ _ := hlinked.checkAttach_iff
  rw [Accepts, register_scalar_eq, show scalar.oid = (ProviderSpec.scalar scalar).oid from rfl,
    ← hcheck]
  cases tree.checkAttach (.scalar scalar) <;> simp

/-! ### One provider after another -/

/-- The provider of the node at an identifier is the one found there. -/
theorem bind_provider_eq (tree : ObjectTree) (oid : Oid) :
    (tree.get? oid).bind Node.provider = (tree.contentAt oid).provider := by
  rw [contentAt]
  cases tree.get? oid <;> rfl

/-- What is attached changes nothing for providers of other names and identifiers. -/
theorem Shaped.admits_attach_iff (hshaped : tree.Shaped) (hname : spec.name ≠ other.name)
    (hoid : other.oid ≠ spec.oid) : (tree.attach spec).1.Admits other ↔ tree.Admits other := by
  have hchange := hshaped.changesAt_attach spec
  have hnames : (tree.attach spec).1.provider? other.name = tree.provider? other.name := by
    rw [provider?, registration?_attach, if_neg hname, Option.or_none, provider?]
  have hprovider : ((tree.attach spec).1.contentAt other.oid).provider =
      (tree.contentAt other.oid).provider := by
    rw [hchange other.oid, if_neg hoid]
  have hvalue (above : Oid) : (tree.attach spec).1.valueAt? above = tree.valueAt? above := by
    rw [valueAt?_eq, valueAt?_eq, hchange.cell_eq]
  constructor
  · rintro ⟨hfree, hbare, hvalues⟩
    rw [bind_provider_eq, hprovider, ← bind_provider_eq] at hbare
    exact ⟨hnames ▸ hfree, hbare, fun above habove => hvalue above ▸ hvalues above habove⟩
  · rintro ⟨hfree, hbare, hvalues⟩
    rw [bind_provider_eq, ← hprovider, ← bind_provider_eq] at hbare
    exact ⟨hnames.trans hfree, hbare,
      fun above habove => (hvalue above).trans (hvalues above habove)⟩

/-- A branch that ends at another address still does when a provider is attached, unless it is
attached below. -/
theorem Shaped.ends_attach_iff (hshaped : tree.Shaped) (hoid : oid ≠ spec.oid) :
    (tree.attach spec).1.Ends oid ↔ tree.Ends oid ∧ ¬oid.arcs <+: spec.oid.arcs := by
  constructor
  · intro hends
    refine ⟨fun below hlive => hends below (hshaped.live_attach_iff.mpr (.inl hlive)),
      fun hway => ?_⟩
    exact hoid (hends spec.oid (hshaped.live_attach_iff.mpr (.inr List.prefix_rfl)) hway).symm
  · rintro ⟨hends, hway⟩ below hlive hbelow
    rcases hshaped.live_attach_iff.mp hlive with hold | hnew
    · exact hends below hold hbelow
    · exact absurd (hbelow.trans hnew) hway

/-- Of two scalars that are accepted, the second one is accepted behind the first one unless its
identifier is a start of that of the first one. -/
theorem WellFormed.accepts_behind_iff (hwf : tree.WellFormed) {first second : ScalarProvider}
    (hname : first.name ≠ second.name) (hoid : second.oid ≠ first.oid)
    (hfirst : tree.Accepts (.scalar first)) (hsecond : tree.Accepts (.scalar second)) :
    (tree.register (.scalar first)).2.Accepts (.scalar second) ↔
      ¬second.oid.arcs <+: first.oid.arcs := by
  have hattach : (tree.register (.scalar first)).2 = (tree.attach (.scalar first)).1 := by
    have hcheck := hwf.shaped.linked.checkAttach_iff.mpr
      (hwf.shaped.linked.accepts_scalar_iff.mp hfirst)
    rw [register_scalar_eq, hcheck]
  have hlinked := (hwf.register (.scalar first)).shaped.linked
  rw [hattach] at hlinked ⊢
  obtain ⟨hadmits, hends⟩ := hwf.shaped.linked.accepts_scalar_iff.mp hsecond
  have hstill : (tree.attach (.scalar first)).1.Admits (.scalar second) ↔
      tree.Admits (.scalar second) := hwf.shaped.admits_attach_iff hname hoid
  have hbranch : (tree.attach (.scalar first)).1.Ends second.oid ↔
      tree.Ends second.oid ∧ ¬second.oid.arcs <+: first.oid.arcs :=
    hwf.shaped.ends_attach_iff hoid
  rw [hlinked.accepts_scalar_iff, hbranch, and_iff_right (hstill.mpr hadmits), and_iff_right hends]

/-- In a tree that any operations lead to, a scalar is accepted exactly when its name is free, no
provider is attached at its identifier, no value stands there or above, and no node stands below.
If it is only for a node below, it is refused as if it were a value, and the tree stays as it is. Of
two scalars with different names and identifiers that are both accepted, each one is accepted behind
the other one as well, unless its identifier is a start of the other one's. -/
theorem run_empty_accepts_scalar (operations : List Operation) :
    let tree := empty.run operations
    ∀ scalar : ScalarProvider,
      (tree.Accepts (.scalar scalar) ↔ tree.Admits (.scalar scalar) ∧ tree.Ends scalar.oid) ∧
      (tree.Admits (.scalar scalar) → ¬tree.Ends scalar.oid →
        tree.register (.scalar scalar) = (.error (.valueNodeConflict scalar.oid.dotted), tree)) ∧
      ∀ other : ScalarProvider, scalar.name ≠ other.name → other.oid ≠ scalar.oid →
        tree.Accepts (.scalar scalar) → tree.Accepts (.scalar other) →
        ((tree.register (.scalar scalar)).2.Accepts (.scalar other) ↔
          ¬other.oid.arcs <+: scalar.oid.arcs) := by
  intro tree scalar
  have hwf : tree.WellFormed := Reachable.wellFormed ⟨operations, rfl⟩
  refine ⟨hwf.shaped.linked.accepts_scalar_iff, fun hadmits hends => ?_,
    fun other => hwf.accepts_behind_iff⟩
  rw [register_scalar_eq, hwf.shaped.linked.checkAttach_of_not_ends hadmits hends]
  rfl

/-- The time zone of the clock, below the clock itself. -/
def zone : ScalarProvider :=
  ⟨"zone", ⟨[1, 3, 1, 2], by decide⟩, some .octetString⟩

/-- Beside the hosts the clock and its zone are accepted, and behind the clock the zone is. -/
theorem run_empty_accepts_scalar_zone :
    let tree := empty.run [.register (.table hosts)]
    let zoned := empty.run [.register (.table hosts), .register (.scalar zone)]
    tree.Accepts (.scalar clock) ∧ tree.Accepts (.scalar zone) ∧
      (tree.register (.scalar clock)).2.Accepts (.scalar zone) ∧
      zoned.Admits (.scalar clock) ∧ ¬zoned.Ends clock.oid ∧
      zoned.register (.scalar clock) = (.error (.valueNodeConflict "1.3.1"), zoned) := by
  intro tree zoned
  obtain ⟨_, _, hbehind⟩ := run_empty_accepts_scalar [.register (.table hosts)] clock
  obtain ⟨_, hrefused, _⟩ := run_empty_accepts_scalar
    [.register (.table hosts), .register (.scalar zone)] clock
  have hclockAccepted : tree.Accepts (.scalar clock) := ⟨_, _, rfl⟩
  have hzoneAccepted : tree.Accepts (.scalar zone) := ⟨_, _, rfl⟩
  have hadmits : zoned.Admits (.scalar clock) := by
    refine ⟨by decide +kernel, by decide +kernel, forall_valueAt?_iff.mpr ⟨?_, by decide +kernel⟩⟩
    unfold Uncovered
    decide +kernel
  have hends : ¬zoned.Ends clock.oid := fun hends => by
    have hlive : zoned.Live zone.oid := ⟨5, _, rfl, rfl⟩
    exact absurd (hends zone.oid hlive ⟨[2], rfl⟩) (by decide)
  exact ⟨hclockAccepted, hzoneAccepted,
    (hbehind zone (by decide) (by decide) hclockAccepted hzoneAccepted).mpr (by decide), hadmits,
    hends, hrefused hadmits hends⟩

/-- Nothing that is registered or stored stands in the way of the clock behind its zone, but it is
refused, while the zone is accepted behind the clock. -/
theorem clock_refused_behind_zone :
    let zoned := empty.run [.register (.scalar zone)]
    let clocked := empty.run [.register (.scalar clock)]
    zoned.Admits (.scalar clock) ∧ ¬zoned.Accepts (.scalar clock) ∧
      clocked.Accepts (.scalar zone) := by
  intro zoned clocked
  refine ⟨⟨by decide +kernel, by decide +kernel, forall_valueAt?_iff.mpr ⟨?_, by decide +kernel⟩⟩,
    ?_, ⟨_, _, rfl⟩⟩
  · unfold Uncovered
    decide +kernel
  · rintro ⟨id, after, hregister⟩
    have hrefused : (zoned.register (.scalar clock)).1.toOption = none := by decide +kernel
    rw [hregister] at hrefused
    cases hrefused

end Smi.ObjectTree
