import CallMigration.Types.Table

/-!
# The types of HttpClient 5

The built-in table: the request, connection and socket configurations with their builders, and the
two classes for spans of time.
-/

namespace CallMigration

namespace HttpClient5

def method (name : String) (params : List String) (returns : String) : MethodInfo :=
  ⟨name, params.map TypeName.ofWritten, TypeName.ofWritten returns, false⟩

def staticMethod (name : String) (params : List String) (returns : String) : MethodInfo :=
  { method name params returns with isStatic := true }

def type (name : String) (supertypes : List String) (methods : List MethodInfo) : TypeInfo :=
  ⟨TypeName.ofWritten name, supertypes.map TypeName.ofWritten, methods⟩

def requestConfig : String := "org.apache.hc.client5.http.config.RequestConfig"
def requestBuilder : String := "org.apache.hc.client5.http.config.RequestConfig.Builder"
def connectionConfig : String := "org.apache.hc.client5.http.config.ConnectionConfig"
def connectionBuilder : String := "org.apache.hc.client5.http.config.ConnectionConfig.Builder"
def socketConfig : String := "org.apache.hc.core5.http.io.SocketConfig"
def socketBuilder : String := "org.apache.hc.core5.http.io.SocketConfig.Builder"
def timeValue : String := "org.apache.hc.core5.util.TimeValue"
def timeout : String := "org.apache.hc.core5.util.Timeout"
def timeUnit : String := "java.util.concurrent.TimeUnit"

/-- The three forms of a timeout setter of the request builder. -/
def timeoutSetter (name : String) : List MethodInfo :=
  [method name ["int"] requestBuilder, method name [timeout] requestBuilder,
    method name ["long", timeUnit] requestBuilder]

def requestBuilderMethods : List MethodInfo :=
  [method "build" [] requestConfig]
    ++ ["setConnectTimeout", "setResponseTimeout", "setConnectionRequestTimeout"].flatMap
      timeoutSetter
    ++ ["setExpectContinueEnabled", "setRedirectsEnabled", "setAuthenticationEnabled",
        "setContentCompressionEnabled"].map (method · ["boolean"] requestBuilder)
    ++ [method "setMaxRedirects" ["int"] requestBuilder,
        method "setCookieSpec" ["java.lang.String"] requestBuilder]

def declarations : List TypeInfo :=
  [type requestConfig []
      [staticMethod "custom" [] requestBuilder,
        staticMethod "copy" [requestConfig] requestBuilder,
        method "getConnectTimeout" [] timeout,
        method "getResponseTimeout" [] timeout,
        method "getConnectionRequestTimeout" [] timeout],
    type requestBuilder [] requestBuilderMethods,
    type connectionConfig [] [staticMethod "custom" [] connectionBuilder],
    type connectionBuilder []
      [method "setConnectTimeout" [timeout] connectionBuilder,
        method "setSocketTimeout" [timeout] connectionBuilder,
        method "build" [] connectionConfig],
    type socketConfig []
      [staticMethod "custom" [] socketBuilder,
        staticMethod "copy" [socketConfig] socketBuilder,
        method "getSoTimeout" [] timeout],
    type socketBuilder []
      [method "setSoTimeout" ["int"] socketBuilder,
        method "setSoTimeout" [timeout] socketBuilder,
        method "setSoTimeout" ["int", timeUnit] socketBuilder,
        method "setSoKeepAlive" ["boolean"] socketBuilder,
        method "setTcpNoDelay" ["boolean"] socketBuilder,
        method "build" [] socketConfig],
    type timeValue [] [method "toMilliseconds" [] "long", method "toSeconds" [] "long"],
    type timeout [timeValue]
      [staticMethod "ofMilliseconds" ["long"] timeout,
        staticMethod "ofSeconds" ["long"] timeout,
        staticMethod "ofMinutes" ["long"] timeout,
        staticMethod "of" ["long", timeUnit] timeout]]

end HttpClient5

def TypeTable.httpClient5 : TypeTable :=
  TypeTable.empty.insertAll HttpClient5.declarations

end CallMigration
