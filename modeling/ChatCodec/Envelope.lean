import ChatCodec.Serializer

/-!
# Envelopes

Requests and responses wrap their payload in an envelope:

* `TokenRequest` — a bearer token, then the payload;
* `SessionRequest` — the acting user and session, then the payload;
* `Response` — an error code, a message where the style of the response has one, and the payload
  only if the code is success.

`Serializer.tokenRequest`, `Serializer.sessionRequest` and `Serializer.response` write the fields
of the envelope and hand the payload on to its own serializer.
-/

namespace ChatCodec

/-- A request authenticated by a bearer token. -/
structure TokenRequest (π : Type) where
  token : String
  payload : π
  deriving DecidableEq, Repr

/-- A request authenticated by the acting user and session. -/
structure SessionRequest (π : Type) where
  userId : Snowflake
  sessionId : Uuid
  payload : π
  deriving DecidableEq, Repr

/-- The outcome of a request. -/
structure Response (π : Type) where
  error : ErrorCode
  /-- Detail for people, sent only in the detailed style. -/
  message : Option String
  payload : Option π
  deriving DecidableEq, Repr

/-- Which fields a response carries besides its payload. -/
inductive ResponseStyle where
  | codeOnly
  | detailed
  deriving DecidableEq, Repr

namespace Response

variable {π : Type}

/-- A success with its payload. -/
def success (payload : π) : Response π :=
  ⟨.success, none, some payload⟩

/-- A failure with its code. -/
def failure (error : ErrorCode) : Response π :=
  ⟨error, none, none⟩

/-- The response with a message for people. -/
def withMessage (response : Response π) (message : String) : Response π :=
  { response with message := some message }

def isSuccess (response : Response π) : Bool :=
  response.error.isSuccess

/-- The payload of a success, or the code of a failure; a success without payload is an internal
error. -/
def toExcept (response : Response π) : Except ErrorCode π :=
  if response.isSuccess then
    match response.payload with
    | some payload => .ok payload
    | none => .error .internalError
  else
    .error response.error

/-- What of a response survives being sent: no payload of a failure, and no message in a style
without one. -/
def normalize (style : ResponseStyle) (response : Response π) : Response π where
  error := response.error
  message :=
    match style with
    | .codeOnly => none
    | .detailed => response.message
  payload := if response.isSuccess then response.payload else none

end Response

namespace Serializer

variable {π : Type}

/-- A bearer token, then the payload. -/
def tokenRequest (payload : Serializer π) : Serializer (TokenRequest π) where
  maxSize request := Layout.text.size request.token + payload.maxSize request.payload
  minSize := Layout.text.minSize + payload.minSize
  serialize request := Write.atomic do
    Write.text request.token
    payload.serialize request.payload
  deserialize := Read.atomic do
    let token ← Read.requiredText
    return { token, payload := ← payload.deserialize }

/-- The bytes of the acting user and session. -/
def sessionSize : Nat := 24

/-- The acting user and session, then the payload. -/
def sessionRequest (payload : Serializer π) : Serializer (SessionRequest π) where
  maxSize request := sessionSize + payload.maxSize request.payload
  minSize := sessionSize + payload.minSize
  serialize request := Write.atomic do
    Write.primitive .snowflake request.userId
    Write.primitive .uuid request.sessionId
    payload.serialize request.payload
  deserialize := Read.atomic do
    let userId ← Read.primitive .snowflake
    let sessionId ← Read.primitive .uuid
    return { userId, sessionId, payload := ← payload.deserialize }

/-- Writes a message in the style that has one. -/
def writeMessage (style : ResponseStyle) (message : Option String) : WriteM Unit :=
  match style with
  | .codeOnly => return
  | .detailed => Write.nullableText message

/-- Reads a message in the style that has one. -/
def readMessage (style : ResponseStyle) : ReadM (Option String) :=
  match style with
  | .codeOnly => return none
  | .detailed => Read.text

/-- Writes the payload of a success. A failure leaves out its payload, whether it has one or not. -/
def writePayload (payload : Serializer π) (response : Response π) : WriteM Unit :=
  if response.isSuccess then
    match response.payload with
    | some content => payload.serialize content
    | none => throw .missingPayload
  else
    return

/-- Reads the payload that follows an error code. -/
def readPayload (payload : Serializer π) (error : ErrorCode) : ReadM (Option π) :=
  if error.isSuccess then some <$> payload.deserialize else pure none

/-- An error code, the message in the detailed style, and the payload of a success. -/
def response (style : ResponseStyle) (payload : Serializer π) : Serializer (Response π) where
  maxSize response :=
    let message :=
      match style with
      | .codeOnly => 0
      | .detailed => Layout.nullableText.size response.message
    -- a failure leaves out its payload, however large it is
    let content := if response.isSuccess then (response.payload.map payload.maxSize).getD 0 else 0
    1 + message + content
  minSize :=
    match style with
    | .codeOnly => 1
    | .detailed => 1 + Layout.nullableText.minSize
  serialize response := Write.atomic do
    Layout.errorCode.write response.error
    writeMessage style response.message
    writePayload payload response
  deserialize := Read.atomic do
    let error ← Layout.errorCode.read
    let message ← readMessage style
    return { error, message, payload := ← readPayload payload error }

end Serializer

end ChatCodec
