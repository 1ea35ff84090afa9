import CallMigration.Proofs.Evaluation
import CallMigration.Proofs.Registry
import CallMigration.Rule.Recipe

/-!
# The stock recipe in its checked form

`useTimeout` reads its signatures and its template from text, and the table of its types is put
together entry by entry. Here all of that is evaluated once, so that what the recipe does can be
followed without the readers.

* `UseTimeout.wrap` : an argument inside of a call that makes a timeout of it.
* `UseTimeout.rule` : the gate, the signatures and the template.
* `HttpClient5.table`, `httpClient5_eq` : the built-in table.
* `useTimeoutOver_eq` : the recipe is built, over every table.
-/

namespace CallMigration

namespace UseTimeout

def timeout : TypeName := ⟨"org.apache.hc.core5.util.Timeout"⟩

def int : TypeName := ⟨"int"⟩

def wrap (argument : Tree) : Tree :=
  .node .methodInvocation
    [.token .identifier "Timeout", .token .dot ".", .token .identifier "ofMilliseconds",
      .node .argumentList [.token .leftParen "(", argument, .token .rightParen ")"]]

/-- A setter that takes a bare number of milliseconds. -/
def setter (owner name : String) : Signature :=
  ⟨⟨owner⟩, name, [int]⟩

def setters : List Signature :=
  [setter "org.apache.hc.client5.http.config.RequestConfig.Builder" "setConnectionRequestTimeout",
    setter "org.apache.hc.client5.http.config.RequestConfig.Builder" "setConnectTimeout",
    setter "org.apache.hc.client5.http.config.RequestConfig.Builder" "setResponseTimeout",
    setter "org.apache.hc.core5.http.io.SocketConfig.Builder" "setSoTimeout"]

def template : Template :=
  ⟨"Timeout.ofMilliseconds(#\x7b\x7d)", .arguments, [.any], [timeout],
    [wrap (.token .identifier "__hcrewrite_slot0__")]⟩

def rule : Rule :=
  ⟨⟨.recursive "org.apache.hc", true⟩, ⟨setters, false⟩, template, [0]⟩

def recipe (table : TypeTable) : Recipe :=
  ⟨"hcrewrite.httpclient5.UseTimeout", "Use `Timeout` class to define timeouts",
    "Use Timeout class to define timeouts.", rule, table⟩

/-! ## Reading the parts -/

theorem gate_eq : Gate.parse "org.apache.hc..*" true = .ok rule.gate :=
  eq_ok_of_toOption (by decide +kernel)

theorem signatures_eq : RecipeParts.parseSignatures signatures = .ok setters :=
  eq_ok_of_toOption (by decide +kernel)

theorem template_eq :
    Template.ofFragment "Timeout.ofMilliseconds(#\x7b\x7d)" ["org.apache.hc.core5.util.Timeout"]
      .arguments = .ok template :=
  eq_ok_of_toOption (by
    rw [Template.ofFragment_eq]
    decide +kernel)

theorem matcher_eq (table : TypeTable) : Matcher.build setters false table = .ok rule.matcher := by
  refine Matcher.build_eq_ok_iff.mpr ⟨?_, rfl⟩
  have hdistinct : setters.Pairwise fun a b => (a == b) = false := by decide
  refine hdistinct.imp ?_
  intro a b hne
  rw [Matcher.overlaps, hne]
  rfl

theorem selection_eq : RecipeParts.checkSelection template setters [0] = .ok () :=
  rfl

end UseTimeout

/-! ## The built-in table -/

namespace HttpClient5

def entry (name : String) (supertypes : List String) (methods : List MethodInfo) : TypeInfo :=
  ⟨⟨name⟩, supertypes.map (⟨·⟩), methods⟩

def member (isStatic : Bool) (name : String) (params : List String) (returns : String) :
    MethodInfo :=
  ⟨name, params.map (⟨·⟩), ⟨returns⟩, isStatic⟩

/-- The built-in table with its entries in order and their names erased. -/
def table : TypeTable :=
  ⟨[entry connectionConfig [] [member true "custom" [] connectionBuilder],
    entry connectionBuilder []
      [member false "setConnectTimeout" [timeout] connectionBuilder,
        member false "setSocketTimeout" [timeout] connectionBuilder,
        member false "build" [] connectionConfig],
    entry requestConfig []
      [member true "custom" [] requestBuilder, member true "copy" [requestConfig] requestBuilder,
        member false "getConnectTimeout" [] timeout, member false "getResponseTimeout" [] timeout,
        member false "getConnectionRequestTimeout" [] timeout],
    entry requestBuilder []
      ([member false "build" [] requestConfig]
        ++ ["setConnectTimeout", "setResponseTimeout", "setConnectionRequestTimeout"].flatMap
          (fun name => [member false name ["int"] requestBuilder,
            member false name [timeout] requestBuilder,
            member false name ["long", timeUnit] requestBuilder])
        ++ ["setExpectContinueEnabled", "setRedirectsEnabled", "setAuthenticationEnabled",
            "setContentCompressionEnabled"].map (member false · ["boolean"] requestBuilder)
        ++ [member false "setMaxRedirects" ["int"] requestBuilder,
            member false "setCookieSpec" ["java.lang.String"] requestBuilder]),
    entry socketConfig []
      [member true "custom" [] socketBuilder, member true "copy" [socketConfig] socketBuilder,
        member false "getSoTimeout" [] timeout],
    entry socketBuilder []
      [member false "setSoTimeout" ["int"] socketBuilder,
        member false "setSoTimeout" [timeout] socketBuilder,
        member false "setSoTimeout" ["int", timeUnit] socketBuilder,
        member false "setSoKeepAlive" ["boolean"] socketBuilder,
        member false "setTcpNoDelay" ["boolean"] socketBuilder,
        member false "build" [] socketConfig],
    entry timeValue [] [member false "toMilliseconds" [] "long", member false "toSeconds" [] "long"],
    entry timeout [timeValue]
      [member true "ofMilliseconds" ["long"] timeout, member true "ofSeconds" ["long"] timeout,
        member true "ofMinutes" ["long"] timeout, member true "of" ["long", timeUnit] timeout]]⟩

end HttpClient5

theorem httpClient5_eq : TypeTable.httpClient5 = HttpClient5.table := by
  decide +kernel

/-! ## The recipe -/

/-- Parts that can be read and fit together make a recipe. -/
theorem RecipeParts.build_eq {parts : RecipeParts} {pattern fragment : String} {implicit : Bool}
    {gate : Gate} {signatures : List Signature} {matcher : Matcher} {template : Template}
    (hprecondition : parts.precondition = some (pattern, implicit))
    (hgate : Gate.parse pattern implicit = .ok gate)
    (hnonempty : parts.signatures.isEmpty = false)
    (hsignatures : parseSignatures parts.signatures = .ok signatures)
    (hmatcher : Matcher.build signatures parts.subtypeMatching parts.table = .ok matcher)
    (hfragment : parts.template = some fragment) (hplaceholders : parts.placeholders = none)
    (htemplate : Template.ofFragment fragment parts.imports parts.target = .ok template)
    (hselected : parts.selected = none)
    (hselection : checkSelection template signatures
      (List.range template.placeholders.length) = .ok ()) :
    parts.build = .ok ⟨parts.name, parts.displayName.getD parts.name, parts.description.getD "",
      ⟨gate, matcher, template, List.range template.placeholders.length⟩, parts.table⟩ := by
  simp only [build, hprecondition, hgate, hnonempty, hsignatures, hmatcher, hfragment,
    hplaceholders, htemplate, hselected, Option.getD_none, hselection, bind, Except.bind, pure,
    Except.pure, Bool.false_eq_true, if_false]

theorem useTimeoutOver_eq (table : TypeTable) :
    useTimeoutOver table = .ok (UseTimeout.recipe table) :=
  RecipeParts.build_eq rfl UseTimeout.gate_eq rfl UseTimeout.signatures_eq
    (UseTimeout.matcher_eq table) rfl rfl UseTimeout.template_eq rfl UseTimeout.selection_eq

theorem useTimeout_eq : useTimeout = .ok (UseTimeout.recipe .httpClient5) :=
  useTimeoutOver_eq _

end CallMigration
