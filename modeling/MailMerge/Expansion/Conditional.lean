import MailMerge.Expansion.Loop

/-!
# Conditionals

A conditional reaches from its opening tag to the nearest closing tag of its name. The first
`{:else}` in it that belongs to no conditional inside parts it into two branches. The branch that is
chosen by the data takes its place, and is expanded in its turn. An opening tag without a closing
tag stays as text.
-/

namespace MailMerge

/-- The names of the conditionals that are open after a token, the innermost first. -/
def nest (opened : List String) : Token → List String
  | .tag (.condOpen name) => name :: opened
  | .tag (.close name) => if opened.head? = some name then opened.tail else opened
  | _ => opened

/-- The two branches of a conditional, given its body and the names of the conditionals that are
open inside it. -/
def branches (opened : List String) : List Token → List Token × Option (List Token)
  | [] => ([], none)
  | t :: ts =>
    if opened = [] ∧ t = .tag .otherwise then ([], some ts)
    else
      let (yes, no) := branches (nest opened t) ts
      (t :: yes, no)

/-- The branch that is chosen. -/
def chosen (holds : Bool) (body : List Token) : List Token :=
  let (yes, no) := branches [] body
  if holds then yes else no.getD []

theorem length_chosen_le (holds : Bool) (body : List Token) :
    (chosen holds body).length ≤ body.length := by
  have h : ∀ (ts : List Token) (opened : List String),
      (branches opened ts).1.length ≤ ts.length ∧
        ((branches opened ts).2.getD []).length ≤ ts.length := by
    intro ts
    induction ts with
    | nil => intro opened; simp [branches]
    | cons t ts ih =>
      intro opened
      simp only [branches]
      split
      · simp
      · have := ih (nest opened t)
        simp only [List.length_cons]
        omega
  have := h body []
  unfold chosen
  cases holds
  · exact this.2
  · exact this.1

theorem length_chosen_lt {name : String} {ts body rest : List Token}
    (h : closedBy? name ts = some (body, rest)) (holds : Bool) :
    (chosen holds body).length < ts.length + 1 := by
  have := length_chosen_le holds body
  simp only [eq_append_of_closedBy? h, List.length_append, List.length_cons]
  omega

/-- Whether the condition of a name holds. -/
def holds (data : DataTree) (name : String) : Bool :=
  (data.get? name).any Value.isTruthy

/-- What comes of a text when its conditionals are resolved. -/
def expandConditionals (data : DataTree) (ts : List Token) : Expansion :=
  match ts with
  | [] => {}
  | .tag (.condOpen name) :: rest =>
    match h : closedBy? name rest with
    | some (body, after) =>
      have := length_chosen_lt h (holds data name)
      have := length_lt_of_closedBy? h
      { stats := { conditionals := 1 } } ++ expandConditionals data (chosen (holds data name) body)
        ++ expandConditionals data after
    | none =>
      .literal (Tag.condOpen name).text ++ .warning (.unclosedConditional name)
        ++ expandConditionals data rest
  | t :: rest => .literal t.text ++ expandConditionals data rest
termination_by ts.length
decreasing_by
  all_goals
    simp only [List.length_cons]
    omega

end MailMerge
