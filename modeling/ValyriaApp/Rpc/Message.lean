import ValyriaApp.Protocol.Json

/-! # JSON-RPC messages

The messages of both directions and the JSON object each is written as. The
JSON libraries of the two sides are parameters.
-/

namespace ValyriaApp.Rpc

structure RpcError where
  code : ℤ
  message : String
  data : Option Json

def RpcError.json (e : RpcError) : Json :=
  .obj ([("code", .num (.fin e.code)), ("message", .str e.message)]
    ++ (e.data.map fun data => ("data", data)).toList)

/-- A `Response` or a `Notification`. -/
inductive Outgoing where
  | ok (id result : Json)
  | err (id : Json) (error : RpcError)
  | notification (method : String) (params : Json)

def Outgoing.json : Outgoing → Json
  | .ok id result => .obj [("jsonrpc", .str "2.0"), ("id", id), ("result", result)]
  | .err id error => .obj [("jsonrpc", .str "2.0"), ("id", id), ("error", error.json)]
  | .notification method params =>
    .obj [("jsonrpc", .str "2.0"), ("method", .str method), ("params", params)]

/-- What `request` writes; absent `params` are not written. -/
structure Request where
  id : ℕ
  method : String
  params : Option Json

def Request.json (q : Request) : Json :=
  .obj ([("jsonrpc", .str "2.0"), ("id", .num q.id), ("method", .str q.method)]
    ++ (q.params.map fun params => ("params", params)).toList)

structure Incoming where
  jsonrpc : Option String
  id : Option Json
  method : String
  params : Json

/-- What a request is read as. -/
def Request.incoming (q : Request) : Incoming where
  jsonrpc := some "2.0"
  id := some (.num q.id)
  method := q.method
  params := q.params.getD .null

abbrev Bytes := List UInt8

/-- The JSON libraries: `serde_json` in the host, `JSON` over UTF-8 in the client. -/
structure Serde where
  toVec : Json → Bytes
  fromSlice : Bytes → Except String Incoming
  stringify : Json → Bytes
  parse : Bytes → Option Json

/-- The serialiser of one side and the parser of the other are inverse on the message, which fits
in a buffer. -/
structure Serde.Carries (S : Serde) (m : Outgoing) : Prop where
  parse_toVec : S.parse (S.toVec m.json) = some m.json
  length_lt : (S.toVec m.json).length < 2 ^ 53

structure Serde.CarriesRequest (S : Serde) (q : Request) : Prop where
  fromSlice_stringify : S.fromSlice (S.stringify q.json) = .ok q.incoming
  length_lt : (S.stringify q.json).length < 2 ^ 53

end ValyriaApp.Rpc
