import MailMerge.Expansion.Repeat

/-!
# Loops

A loop reaches from its opening tag to the nearest closing tag of its name, whatever stands between.
It gives way to one copy of its body for each item of its list. An opening tag without such a
closing tag stays as text.
-/

namespace MailMerge

/-- The tokens before the nearest closing tag of a name, and those after it. -/
def closedBy? (name : String) : List Token → Option (List Token × List Token)
  | [] => none
  | t :: ts =>
    if t = .tag (.close name) then some ([], ts)
    else (closedBy? name ts).map fun (body, rest) => (t :: body, rest)

theorem eq_append_of_closedBy? {name : String} {ts body rest : List Token}
    (h : closedBy? name ts = some (body, rest)) : ts = body ++ .tag (.close name) :: rest := by
  induction ts generalizing body with
  | nil => simp [closedBy?] at h
  | cons t ts ih =>
    simp only [closedBy?] at h
    split at h
    · next ht =>
      simp only [Option.some.injEq, Prod.mk.injEq] at h
      simp [ht, ← h.1, h.2]
    · simp only [Option.map_eq_some_iff, Prod.mk.injEq, Prod.exists] at h
      obtain ⟨b, r, hb, rfl, rfl⟩ := h
      simp [ih hb]

theorem length_lt_of_closedBy? {name : String} {ts body rest : List Token}
    (h : closedBy? name ts = some (body, rest)) : rest.length < ts.length + 1 := by
  simp only [eq_append_of_closedBy? h, List.length_append, List.length_cons]
  omega

/-- What comes of a loop. -/
def expandLoop (data : DataTree) (options : Options) (name : String) (body : List Token) :
    Expansion :=
  match listFor data .loop name with
  | .error w => .warning w
  | .ok items => { stats := { loops := 1 } } ++ expandItems options .loop name body items

/-- What comes of a text when its loops are resolved. -/
def expandLoops (data : DataTree) (options : Options) (ts : List Token) : Expansion :=
  match ts with
  | [] => {}
  | .tag (.loopOpen name) :: rest =>
    match h : closedBy? name rest with
    | some (body, after) =>
      have := length_lt_of_closedBy? h
      expandLoop data options name body ++ expandLoops data options after
    | none =>
      .literal (Tag.loopOpen name).text ++ .warning (.unclosedLoop name)
        ++ expandLoops data options rest
  | t :: rest => .literal t.text ++ expandLoops data options rest
termination_by ts.length

end MailMerge
