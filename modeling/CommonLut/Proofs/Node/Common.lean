import CommonLut.Node.Write
import CommonLut.Node.Read
import CommonLut.Proofs.Markup.Access

/-!
# What every node carries, read back

Only lookups of known names and the order of the unknown attributes count when attributes are read.
So an element spells the common part of a node in more than one way: as it is written, and with the
bypass flag of a written element set afterwards.

Main definitions: `NodeCommon.Readable`, `NodeCommon.Spelled`.
Main statements: `NodeCommon.readAttributes_spelled`, `NodeCommon.readChild_writeChildren`,
`NodeCommon.Spelled.bypassed`.
-/

namespace CommonLut.NodeCommon

/-! ## §1 What reading gives -/

/-- Whether an attribute belongs to nothing known. -/
def isUnknown (kindAttributes : List String) (a : String × String) : Bool :=
  !ownAttributes.contains a.1 && !kindAttributes.contains a.1

/-- A common part as it is read from an element. `leaves` holds of the names of children that the
kind of the node has no use for, and `kindAttributes` are the attributes of the kind. -/
structure Readable (options : ReadOptions) (leaves : String → Prop) (kindAttributes : List String)
    (c : NodeCommon) : Prop where
  elements : ∀ d ∈ c.elements, d.name = "Description" ∧ d.Parsed
  values : ∀ v ∈ c.values,
    (v.1 ≠ "Description" ∧ v.1 ≠ "DynamicParameter" ∧ leaves v.1) ∧ IsName v.1
  accepted : c.dynamicParams ≠ [] → options.require .autodesk "DynamicParameter" = .ok ()
  extra : ∀ a ∈ c.extra, isUnknown kindAttributes a = true ∧ IsName a.1
  distinct : (c.extra.map Prod.fst).Nodup

/-- A common part as far as attributes give it. -/
def bare (c : NodeCommon) : NodeCommon :=
  { c with
    elements := []
    values := []
    dynamicParams := [] }

section

variable {options : ReadOptions} {leaves : String → Prop} {kindAttributes : List String}
  {c c' : NodeCommon}

/-- Attributes give nothing that children give, and every attribute that is unknown is kept. -/
theorem of_readAttributes {e : Element} (h : readAttributes e kindAttributes = .ok c) :
    c.bare = c ∧ c.extra = e.attributes.filter (isUnknown kindAttributes) := by
  unfold readAttributes at h
  obtain ⟨input, -, h⟩ := bind_eq_ok.mp h
  obtain ⟨output, -, h⟩ := bind_eq_ok.mp h
  obtain ⟨bypass, -, h⟩ := bind_eq_ok.mp h
  cases h
  exact ⟨rfl, rfl⟩

/-- All that one more child can do. -/
theorem readChild_cases {child : Element} (h : c.readChild options child = .ok c') :
    child.name = "Description" ∧ c' = { c with elements := c.elements ++ [child] } ∨
    (child.name = "DynamicParameter" ∧ options.require .autodesk "DynamicParameter" = .ok () ∧
      ∃ param, child.requiredAttribute "param" = .ok param ∧
        c' = { c with dynamicParams := c.dynamicParams ++ [param] }) ∨
    ((child.name ≠ "Description" ∧ child.name ≠ "DynamicParameter") ∧
      ∃ x, Element.number? child.text = some x ∧ child.isPlain = true ∧
        c' = { c with values := c.values ++ [(child.name, x)] }) ∨
    c' = c := by
  unfold readChild at h
  split at h
  · next hdescription =>
    cases h
    exact .inl ⟨hdescription, rfl⟩
  · next hdescription =>
    split at h
    · next hparameter =>
      obtain ⟨⟨⟩, haccepted, h⟩ := bind_eq_ok.mp h
      obtain ⟨param, hparam, h⟩ := bind_eq_ok.mp h
      cases h
      exact .inr (.inl ⟨hparameter, haccepted, param, hparam, rfl⟩)
    · next hparameter =>
      split at h
      · next x hx =>
        cases h
        split
        · next hplain =>
          exact .inr (.inr (.inl ⟨⟨hdescription, hparameter⟩, x, hx, hplain, rfl⟩))
        · exact .inr (.inr (.inr rfl))
      · cases h
        exact .inr (.inr (.inr rfl))

theorem readable_default : Readable options leaves kindAttributes {} := by
  constructor <;> simp

theorem readable_of_readAttributes {e : Element} (he : e.Parsed)
    (h : readAttributes e kindAttributes = .ok c) : Readable options leaves kindAttributes c := by
  obtain ⟨-, ⟨hnames, hnodup⟩, -, -⟩ := Element.parsed_iff.mp he
  obtain ⟨hbare, hextra⟩ := of_readAttributes h
  rw [← hbare]
  refine ⟨by simp [bare], by simp [bare], by simp [bare], fun a ha => ?_, ?_⟩
  · obtain ⟨hmem, hunknown⟩ := List.mem_filter.mp (hextra ▸ ha)
    exact ⟨hunknown, hnames a hmem⟩
  · rw [bare, hextra]
    exact hnodup.sublist (List.filter_sublist.map Prod.fst)

theorem readable_of_readChild (hc : Readable options leaves kindAttributes c) {child : Element}
    (hchild : child.Parsed) (hleaves : leaves child.name)
    (h : c.readChild options child = .ok c') : Readable options leaves kindAttributes c' := by
  have hname := (Element.parsed_iff.mp hchild).1
  obtain ⟨hdescription, rfl⟩ | ⟨-, haccepted, param, -, rfl⟩ | ⟨hother, x, -, -, rfl⟩ | rfl :=
    readChild_cases h
  · exact { hc with
      elements := List.forall_mem_append.mpr
        ⟨hc.elements, List.forall_mem_singleton.mpr ⟨hdescription, hchild⟩⟩ }
  · exact { hc with accepted := fun _ => haccepted }
  · exact { hc with
      values := List.forall_mem_append.mpr
        ⟨hc.values, List.forall_mem_singleton.mpr ⟨⟨hother.1, hother.2, hleaves⟩, hname⟩⟩ }
  · exact hc

/-- Children do not change what the attributes gave. -/
theorem bare_of_readChild {child : Element} (h : c.readChild options child = .ok c') :
    c'.bare = c.bare := by
  obtain ⟨-, rfl⟩ | ⟨-, -, param, -, rfl⟩ | ⟨-, x, -, -, rfl⟩ | rfl := readChild_cases h <;> rfl

end

/-! ## §2 Attributes read back -/

/-- Attributes that are read as a common part and the attributes of a kind. -/
structure Spelled (c : NodeCommon) (kindAttributes : List String) (own : List (String × String))
    (attributes : List (String × String)) : Prop where
  id : lookupKey attributes "id" = c.id
  name : lookupKey attributes "name" = c.name
  input : lookupKey attributes "inBitDepth" = some c.input.token
  output : lookupKey attributes "outBitDepth" = some c.output.token
  bypass : lookupKey attributes "bypass" = c.bypass.map flagText
  own : ∀ key ∈ kindAttributes, lookupKey attributes key = lookupKey own key
  extra : attributes.filter (isUnknown kindAttributes) = c.extra

theorem ofToken?_token (d : BitDepth) : BitDepth.ofToken? d.token = some d := by
  cases d <;> decide

theorem readDepth_token {e : Element} {key : String} {d : BitDepth}
    (h : lookupKey e.attributes key = some d.token) : readDepth e key = .ok d := by
  refine bind_eq_ok.mpr ⟨d.token, ?_, ?_⟩
  · rw [Element.requiredAttribute, Element.attribute?_eq, h]
  · rw [ofToken?_token]

theorem flagAttribute_flagText {e : Element} {key : String} {flag : Option Bool}
    (h : lookupKey e.attributes key = flag.map flagText) : e.flagAttribute key = .ok flag := by
  rw [Element.flagAttribute, Element.attribute?_eq, h]
  cases flag with
  | none => rfl
  | some b => cases b <;> rfl

/-- Only what `Spelled` says counts. -/
theorem readAttributes_spelled {c : NodeCommon} {kindAttributes : List String}
    {own : List (String × String)} {e : Element}
    (h : c.Spelled kindAttributes own e.attributes) :
    readAttributes e kindAttributes = .ok c.bare := by
  refine bind_eq_ok.mpr ⟨_, readDepth_token h.input, bind_eq_ok.mpr ⟨_, readDepth_token h.output,
    bind_eq_ok.mpr ⟨_, flagAttribute_flagText h.bypass, ?_⟩⟩⟩
  have hextra : (e.attributes.filter fun a =>
      !ownAttributes.contains a.1 && !kindAttributes.contains a.1) = c.extra := h.extra
  rw [hextra, Element.attribute?_eq, h.id, Element.attribute?_eq, h.name]
  rfl

/-! ## §3 Written attributes -/

@[simp]
theorem lookupKey_optionalAttribute (key : String) (value : Option String) (other : String) :
    lookupKey (optionalAttribute key value) other = if key = other then value else none := by
  cases value <;> simp [optionalAttribute]

/-- The written attributes have known names, in the order in which these are listed. -/
theorem keys_writeAttributes (c : NodeCommon) :
    (c.writeAttributes.map Prod.fst).Sublist ownAttributes := by
  obtain ⟨id, name, input, output, bypass, elements, values, dynamicParams, extra⟩ := c
  cases id <;> cases name <;> cases bypass <;>
    simp [writeAttributes, optionalAttribute, ownAttributes]

theorem not_mem_of_isUnknown {kindAttributes : List String} {a : String × String}
    (h : isUnknown kindAttributes a = true) : a.1 ∉ ownAttributes ∧ a.1 ∉ kindAttributes := by
  simpa [isUnknown] using h

/-- Attributes as an element of a kind has them, the kind's own ones being given. -/
structure Separate (kindAttributes : List String) (own : List (String × String)) : Prop where
  disjoint : ∀ key ∈ kindAttributes, key ∉ ownAttributes
  names : ∀ key ∈ kindAttributes, IsName key
  nodup : kindAttributes.Nodup
  written : (own.map Prod.fst).Sublist kindAttributes

theorem Separate.mem {kindAttributes : List String} {own : List (String × String)}
    (h : Separate kindAttributes own) {a : String × String} (ha : a ∈ own) :
    a.1 ∈ kindAttributes :=
  h.written.subset (List.mem_map_of_mem ha)

section

variable {options : ReadOptions} {leaves : String → Prop} {kindAttributes : List String}
  {own : List (String × String)} {c : NodeCommon}

/-- The common attributes are found in front of the others. -/
theorem lookupKey_written (hc : Readable options leaves kindAttributes c)
    (hown : Separate kindAttributes own) {key : String} (hkey : key ∈ ownAttributes) :
    lookupKey (c.writeAttributes ++ own ++ c.extra) key = lookupKey c.writeAttributes key := by
  have hnone : lookupKey own key = none := lookupKey_eq_none fun a ha heq =>
    hown.disjoint a.1 (hown.mem ha) (heq ▸ hkey)
  have hextra : lookupKey c.extra key = none := lookupKey_eq_none fun a ha heq =>
    (not_mem_of_isUnknown (hc.extra a ha).1).1 (heq ▸ hkey)
  rw [lookupKey_append, lookupKey_append, hnone, hextra, Option.or_none, Option.or_none]

theorem spelled_written (hc : Readable options leaves kindAttributes c)
    (hown : Separate kindAttributes own) :
    c.Spelled kindAttributes own (c.writeAttributes ++ own ++ c.extra) := by
  have hlookup : ∀ key ∈ ownAttributes,
      lookupKey (c.writeAttributes ++ own ++ c.extra) key = lookupKey c.writeAttributes key :=
    fun key hkey => lookupKey_written hc hown hkey
  refine ⟨?_, ?_, ?_, ?_, ?_, fun key hkey => ?_, ?_⟩
  · rw [hlookup "id" (by decide)]
    simp [writeAttributes]
  · rw [hlookup "name" (by decide)]
    simp [writeAttributes]
  · rw [hlookup "inBitDepth" (by decide)]
    simp [writeAttributes]
  · rw [hlookup "outBitDepth" (by decide)]
    simp [writeAttributes]
  · rw [hlookup "bypass" (by decide)]
    simp [writeAttributes]
  · have hcommon : lookupKey c.writeAttributes key = none := lookupKey_eq_none fun a ha heq =>
      hown.disjoint key hkey
        (heq ▸ (keys_writeAttributes c).subset (List.mem_map_of_mem (f := Prod.fst) ha))
    have hextra : lookupKey c.extra key = none := lookupKey_eq_none fun a ha heq =>
      (not_mem_of_isUnknown (hc.extra a ha).1).2 (heq ▸ hkey)
    rw [lookupKey_append, lookupKey_append, hcommon, hextra, Option.none_or, Option.or_none]
  -- Of the three parts only the last one passes the filter, and it does so as a whole.
  · have hcommon : c.writeAttributes.filter (isUnknown kindAttributes) = [] :=
      List.filter_eq_nil_iff.mpr fun a ha hunknown => (not_mem_of_isUnknown hunknown).1
        ((keys_writeAttributes c).subset (List.mem_map_of_mem (f := Prod.fst) ha))
    have hkind : own.filter (isUnknown kindAttributes) = [] :=
      List.filter_eq_nil_iff.mpr fun a ha hunknown =>
        (not_mem_of_isUnknown hunknown).2 (hown.mem ha)
    have hextra : c.extra.filter (isUnknown kindAttributes) = c.extra :=
      List.filter_eq_self.mpr fun a ha => (hc.extra a ha).1
    rw [List.filter_append, List.filter_append, hcommon, hkind, hextra]
    rfl

/-- Names are proper and different in the attributes that are written. -/
theorem writable_attributes (hc : Readable options leaves kindAttributes c)
    (hown : Separate kindAttributes own) :
    (∀ a ∈ c.writeAttributes ++ own ++ c.extra, IsName a.1) ∧
      ((c.writeAttributes ++ own ++ c.extra).map Prod.fst).Nodup := by
  have hcommon : ∀ key ∈ ownAttributes, IsName key := by decide
  constructor
  · intro a ha
    simp only [List.mem_append] at ha
    rcases ha with (ha | ha) | ha
    · exact hcommon a.1 ((keys_writeAttributes c).subset (List.mem_map_of_mem ha))
    · exact hown.names a.1 (hown.mem ha)
    · exact (hc.extra a ha).2
  · -- Attributes without a value are left out, so what is written is a part of all that could be.
    have hsublist : ((c.writeAttributes ++ own ++ c.extra).map Prod.fst).Sublist
        (ownAttributes ++ kindAttributes ++ c.extra.map Prod.fst) := by
      rw [List.map_append, List.map_append]
      exact ((keys_writeAttributes c).append hown.written).append (List.Sublist.refl _)
    have hextra : ∀ key ∈ c.extra.map Prod.fst, key ∉ ownAttributes ∧ key ∉ kindAttributes := by
      intro key hkey
      obtain ⟨a, ha, rfl⟩ := List.mem_map.mp hkey
      exact not_mem_of_isUnknown (hc.extra a ha).1
    refine List.Nodup.sublist hsublist (List.nodup_append.mpr ⟨List.nodup_append.mpr ⟨by decide,
      hown.nodup, fun a ha b hb heq => hown.disjoint b hb (heq ▸ ha)⟩, hc.distinct,
      fun a ha b hb heq => ?_⟩)
    subst heq
    rcases List.mem_append.mp ha with ha | ha
    · exact (hextra a hb).1 ha
    · exact (hextra a hb).2 ha

/-! ## §4 The bypass flag set afterwards -/

/-- A written element with its bypass flag set is read as a bypassed node. -/
theorem Spelled.bypassed {attributes : List (String × String)}
    (h : c.Spelled kindAttributes own attributes)
    (hdisjoint : ∀ key ∈ kindAttributes, key ∉ ownAttributes) :
    { c with bypass := some true }.Spelled kindAttributes own
      (attributes.filter (fun a : String × String => a.1 != "bypass") ++ [("bypass", "true")]) := by
  -- The flag moves to the end, and nothing else that is read depends on the order.
  have hother : ∀ key, key ≠ "bypass" →
      lookupKey (attributes.filter (fun a : String × String => a.1 != "bypass") ++
        [("bypass", "true")]) key = lookupKey attributes key := by
    intro key hkey
    have hnone : lookupKey [("bypass", "true")] key = none := by
      rw [lookupKey_cons, if_neg (Ne.symm hkey), lookupKey_nil]
    have hkept : ∀ a ∈ attributes, a.1 = key → (a.1 != "bypass") = true := by
      intro a _ heq
      rw [bne_iff_ne, heq]
      exact hkey
    rw [lookupKey_append, hnone, Option.or_none, lookupKey_filter hkept]
  refine ⟨?_, ?_, ?_, ?_, ?_, fun key hkey => ?_, ?_⟩
  · rw [hother "id" (by decide), h.id]
  · rw [hother "name" (by decide), h.name]
  · rw [hother "inBitDepth" (by decide), h.input]
  · rw [hother "outBitDepth" (by decide), h.output]
  · rw [lookupKey_append, lookupKey_eq_none fun a ha => by simpa using (List.mem_filter.mp ha).2]
    rfl
  · rw [hother key fun heq => hdisjoint key hkey (heq ▸ by decide), h.own key hkey]
  · have hunknown : ∀ a : String × String, isUnknown kindAttributes a = true →
        (a.1 != "bypass") = true := by
      intro a ha
      rw [bne_iff_ne]
      exact fun heq => (not_mem_of_isUnknown ha).1 (heq ▸ by decide)
    have hflag : [("bypass", "true")].filter (isUnknown kindAttributes) = [] := by
      simp [isUnknown, ownAttributes]
    rw [List.filter_append, hflag, List.append_nil, List.filter_filter, ← h.extra]
    refine List.filter_congr fun a _ => ?_
    cases ha : isUnknown kindAttributes a with
    | false => rfl
    | true => rw [Bool.true_and, hunknown a ha]

end

/-! ## §5 Children read back -/

section

variable {options : ReadOptions} {leaves : String → Prop} {kindAttributes : List String}

theorem readChild_elements (c : NodeCommon) {ds : List Element}
    (hds : ∀ d ∈ ds, d.name = "Description" ∧ d.Parsed) :
    (ds.map Element.trimmed).foldlM (readChild options) c =
      .ok { c with elements := c.elements ++ ds } := by
  induction ds generalizing c with
  | nil => simp [pure, Except.pure]
  | cons d ds ih =>
    obtain ⟨hname, hparsed⟩ := hds d List.mem_cons_self
    have hread : c.readChild options d.trimmed = .ok { c with elements := c.elements ++ [d] } := by
      rw [hparsed.texts, readChild, if_pos hname]
    rw [List.map_cons, List.foldlM_cons, hread]
    refine (ih _ fun d' hd' => hds d' (List.mem_cons_of_mem d hd')).trans ?_
    simp

theorem readChild_values (c : NodeCommon) {vs : List (String × Float)}
    (hvs : ∀ v ∈ vs, v.1 ≠ "Description" ∧ v.1 ≠ "DynamicParameter") :
    ((vs.map fun v => Element.leaf v.1 (Text.format64 v.2)).map Element.trimmed).foldlM
      (readChild options) c = .ok { c with values := c.values ++ vs } := by
  induction vs generalizing c with
  | nil => simp [pure, Except.pure]
  | cons v vs ih =>
    obtain ⟨hdescription, hparameter⟩ := hvs v List.mem_cons_self
    have hread : c.readChild options (Element.leaf v.1 (Text.format64 v.2)).trimmed =
        .ok { c with values := c.values ++ [v] } := by
      rw [Element.trimmed_leaf, Text.trim_word (Text.isWord_format64 v.2), readChild,
        Element.name_leaf, if_neg hdescription, if_neg hparameter, Element.text_leaf,
        Element.number?_format64]
      rfl
    rw [List.map_cons, List.map_cons, List.foldlM_cons, hread]
    refine (ih _ fun v' hv' => hvs v' (List.mem_cons_of_mem v hv')).trans ?_
    simp

theorem readChild_dynamicParams (c : NodeCommon) {ps : List String}
    (haccepted : ps ≠ [] → options.require .autodesk "DynamicParameter" = .ok ()) :
    ((ps.map fun p => (Element.leaf "DynamicParameter" "").withAttribute "param" p).map
      Element.trimmed).foldlM (readChild options) c =
        .ok { c with dynamicParams := c.dynamicParams ++ ps } := by
  induction ps generalizing c with
  | nil => simp [pure, Except.pure]
  | cons p ps ih =>
    have hrequire := haccepted (List.cons_ne_nil p ps)
    have hread : c.readChild options
        ((Element.leaf "DynamicParameter" "").withAttribute "param" p).trimmed =
          .ok { c with dynamicParams := c.dynamicParams ++ [p] } := by
      rw [readChild, if_neg (by simp [Element.leaf]), if_pos (by simp [Element.leaf]), hrequire]
      simp [Element.requiredAttribute, bind, Except.bind, pure, Except.pure]
    rw [List.map_cons, List.map_cons, List.foldlM_cons, hread]
    refine (ih _ fun _ => hrequire).trans ?_
    simp

/-- The written children of the common part give it back. -/
theorem readChild_writeChildren {c : NodeCommon} (hc : Readable options leaves kindAttributes c) :
    (c.writeChildren.map Element.trimmed).foldlM (readChild options) c.bare = .ok c := by
  rw [writeChildren, List.map_append, List.map_append, List.append_assoc,
    foldlM_append_of_ok (readChild_elements c.bare hc.elements),
    foldlM_append_of_ok (readChild_values _ fun v hv => ⟨(hc.values v hv).1.1,
      (hc.values v hv).1.2.1⟩), readChild_dynamicParams _ hc.accepted]
  simp [bare]

/-- The kind of a node has no use for the children of the common part. -/
theorem leaves_writeChildren {c : NodeCommon} (hc : Readable options leaves kindAttributes c)
    (hdescription : leaves "Description") (hparameter : leaves "DynamicParameter") :
    ∀ child ∈ c.writeChildren, leaves child.name := by
  intro child hchild
  simp only [writeChildren, List.mem_append, List.mem_map] at hchild
  rcases hchild with (hchild | ⟨v, hv, rfl⟩) | ⟨p, -, rfl⟩
  · rwa [(hc.elements child hchild).1]
  · exact (hc.values v hv).1.2.2
  · exact hparameter

theorem writable_writeChildren {c : NodeCommon} (hc : Readable options leaves kindAttributes c) :
    ∀ child ∈ c.writeChildren, child.Writable := by
  have hparameter : IsName "DynamicParameter" := by decide
  have hparam : IsName "param" := by decide
  intro child hchild
  simp only [writeChildren, List.mem_append, List.mem_map] at hchild
  rcases hchild with (hchild | ⟨v, hv, rfl⟩) | ⟨p, -, rfl⟩
  · exact (hc.elements child hchild).2.toWritable
  · exact Element.writable_leaf (hc.values v hv).2 _
  · refine ((Element.keysWithin_leaf "DynamicParameter" "").withAttribute "param" p).writable
      hparameter (by simpa using hparam) (by decide) fun c hc => absurd hc List.not_mem_nil

end

end CommonLut.NodeCommon
