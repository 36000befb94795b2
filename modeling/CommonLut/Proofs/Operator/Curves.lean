import CommonLut.Proofs.Operator.Grades

/-!
# Logarithm and gamma curves read back

The parameters of a curve stand in one child for each entry, in attributes that are left out where
there is no value. The entries are read back in order.

Main statements: `LogCurve.orderly`, `LogCurve.readsBack`, `GammaCurve.orderly`,
`GammaCurve.readsBack`.
-/

namespace CommonLut

theorem Channel.read_token (c : Channel) : Channel.read c.token = .ok c := by
  cases c <;> rfl

/-! ## §1 Logarithm curves -/

namespace LogCurve

theorem read_token (style : LogStyle) : LogStyle.read style.token = .ok style := by
  cases style <;> rfl

theorem readChild_eq_none (options : ReadOptions) (c : LogCurve Float) (child : Element) :
    schema.readChild options c child = .ok none ↔ child.name ∉ ["LogParams"] :=
  Schema.taken_eq_none_iff

/-- The attributes of the parameters of a channel. -/
def paramKeys : List String :=
  ["gamma", "refWhite", "refBlack", "highlight", "shadow", "channel"]

theorem writable_writeParams (p : DensityParams Float) : (writeParams p).Writable := by
  have hname : IsName "LogParams" := by decide
  have hkeys : ∀ key ∈ paramKeys, IsName key := by decide
  have hwithin : (writeParams p).KeysWithin paramKeys :=
    ((((((Element.keysWithin_leaf "LogParams" "").withAttribute? "gamma" _).withAttribute?
      "refWhite" _).withAttribute? "refBlack" _).withAttribute? "highlight" _).withAttribute?
      "shadow" _).withAttribute? "channel" _
  refine hwithin.writable (by simpa [writeParams] using hname) hkeys (by decide) ?_
  simp [writeParams, Element.leaf]

theorem orderly : schema.Orderly := by
  refine Schema.orderly_of_names _ readChild_eq_none (by decide) (by decide)
    (fun c => separate_style (List.Sublist.refl _)) fun c child hchild => ?_
  obtain ⟨p, -, rfl⟩ := List.mem_map.mp hchild
  exact writable_writeParams p

/-- Every value of a channel is read back, and none is made up. -/
theorem readParams_writeParams (p : DensityParams Float) :
    readParams (writeParams p).trimmed = .ok p := by
  have hgamma : (writeParams p).trimmed.numberAttribute "gamma" = .ok p.gamma :=
    Element.numberAttribute_format64 (by simp [writeParams])
  have hwhite : (writeParams p).trimmed.numberAttribute "refWhite" = .ok p.refWhite :=
    Element.numberAttribute_format64 (by simp [writeParams])
  have hblack : (writeParams p).trimmed.numberAttribute "refBlack" = .ok p.refBlack :=
    Element.numberAttribute_format64 (by simp [writeParams])
  have hhighlight : (writeParams p).trimmed.numberAttribute "highlight" = .ok p.highlight :=
    Element.numberAttribute_format64 (by simp [writeParams])
  have hshadow : (writeParams p).trimmed.numberAttribute "shadow" = .ok p.shadow :=
    Element.numberAttribute_format64 (by simp [writeParams])
  have hchannel : readToken? Channel.read (writeParams p).trimmed "channel" = .ok p.channel :=
    Schema.readToken?_token Channel.read_token (by simp [writeParams])
  rw [readParams, hgamma, hwhite, hblack, hhighlight, hshadow, hchannel]
  rfl

theorem readsBack (options : ReadOptions) (depth : BitDepth) (c : LogCurve Float) :
    schema.ReadsBack options depth c { style := c.style } c c where
  attributes e he := by
    have hstyle : e.attribute? "style" = some c.style.token := he "style" (by decide)
    exact bind_eq_ok.mpr ⟨_, Element.requiredAttribute_of_some hstyle,
      bind_eq_ok.mpr ⟨_, read_token c.style, rfl⟩⟩
  children common := by
    have hread : ∀ before, ∀ p ∈ c.params,
        schema.readChild options { c with params := before } (writeParams p).trimmed =
          .ok (some { c with params := before ++ [p] }) := by
      intro before p _
      have hname : (writeParams p).trimmed.name = "LogParams" := by simp [writeParams]
      simp only [schema, hname, if_true, readParams_writeParams]
      rfl
    exact Schema.foldlM_step_entries (fun params => { c with params }) hread common []
  check _ := rfl

end LogCurve

/-! ## §2 Gamma curves -/

namespace GammaCurve

theorem read_token (style : GammaStyle) : GammaStyle.read style.token = .ok style := by
  cases style <;> rfl

theorem readChild_eq_none (options : ReadOptions) (c : GammaCurve Float) (child : Element) :
    schema.readChild options c child = .ok none ↔ child.name ∉ ["GammaParams"] :=
  Schema.taken_eq_none_iff

/-- The attributes of the parameters of a channel. -/
def paramKeys : List String := ["gamma", "offset", "channel"]

theorem writable_writeParams (p : GammaParams Float) : (writeParams p).Writable := by
  have hname : IsName "GammaParams" := by decide
  have hkeys : ∀ key ∈ paramKeys, IsName key := by decide
  have hwithin : (writeParams p).KeysWithin paramKeys :=
    (((Element.keysWithin_leaf "GammaParams" "").withAttribute "gamma" _).withAttribute?
      "offset" _).withAttribute? "channel" _
  refine hwithin.writable (by simpa [writeParams] using hname) hkeys (by decide) ?_
  simp [writeParams, Element.leaf]

theorem orderly : schema.Orderly := by
  refine Schema.orderly_of_names _ readChild_eq_none (by decide) (by decide)
    (fun c => separate_style (List.Sublist.refl _)) fun c child hchild => ?_
  obtain ⟨p, -, rfl⟩ := List.mem_map.mp hchild
  exact writable_writeParams p

theorem readParams_writeParams (p : GammaParams Float) :
    readParams (writeParams p).trimmed = .ok p := by
  have hgamma : (writeParams p).trimmed.numberAttribute "gamma" = .ok (some p.gamma) :=
    Element.numberAttribute_format64 (by simp [writeParams])
  have hoffset : (writeParams p).trimmed.numberAttribute "offset" = .ok p.offset :=
    Element.numberAttribute_format64 (by simp [writeParams])
  have hchannel : readToken? Channel.read (writeParams p).trimmed "channel" = .ok p.channel :=
    Schema.readToken?_token Channel.read_token (by simp [writeParams])
  exact bind_eq_ok.mpr ⟨_, hgamma, bind_eq_ok.mpr ⟨_, hoffset, bind_eq_ok.mpr ⟨_, hchannel, rfl⟩⟩⟩

theorem readsBack (options : ReadOptions) (depth : BitDepth) (c : GammaCurve Float) :
    schema.ReadsBack options depth c { style := c.style } c c where
  attributes e he := by
    have hstyle : e.attribute? "style" = some c.style.token := he "style" (by decide)
    exact bind_eq_ok.mpr ⟨_, Element.requiredAttribute_of_some hstyle,
      bind_eq_ok.mpr ⟨_, read_token c.style, rfl⟩⟩
  children common := by
    have hread : ∀ before, ∀ p ∈ c.params,
        schema.readChild options { c with params := before } (writeParams p).trimmed =
          .ok (some { c with params := before ++ [p] }) := by
      intro before p _
      have hname : (writeParams p).trimmed.name = "GammaParams" := by simp [writeParams]
      simp only [schema, hname, if_true, readParams_writeParams]
      rfl
    exact Schema.foldlM_step_entries (fun params => { c with params }) hread common []
  check _ := rfl

end GammaCurve

end CommonLut
