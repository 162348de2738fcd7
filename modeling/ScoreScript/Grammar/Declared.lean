import ScoreScript.Declaration.Reader
import ScoreScript.Grammar.Build

/-!
# The grammar of a text

Declarations are enough to make a grammar.  Scripts that grow from it have texts, but without
implementations they have no scores.

* `Grammar.ofText` — the grammar of the enabled predicates that a text declares;
* `Grammar.ofText_of_parse` — it depends on the declarations alone.
-/

namespace ScoreScript

/-- Why a text gives no grammar. -/
inductive TextError where
  | parse (error : ParseError)
  | grammar (error : GrammarError)

/-- The wording of an error. -/
def TextError.message : TextError → String
  | parse error => error.message
  | grammar error => error.message

namespace Grammar

/-- The grammar of the enabled predicates that a text declares. -/
def ofText (text : String) (enabled : Capabilities) (c : Config) : Except TextError Grammar :=
  match Declaration.parse text with
  | .error error => .error (.parse error)
  | .ok ds => (build (Declaration.enabledPredicates enabled ds) c).mapError .grammar

theorem ofText_of_parse {text : String} {ds : List Declaration}
    (h : Declaration.parse text = .ok ds) (enabled : Capabilities) (c : Config) :
    ofText text enabled c =
      (build (Declaration.enabledPredicates enabled ds) c).mapError .grammar := by
  rw [ofText, h]

end Grammar

end ScoreScript
