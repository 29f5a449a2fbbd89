import QueryLowering.Catalog
import QueryLowering.Model

/-!
A sample model and catalog: customers with orders, order lines with a composite key, shipments that
refer to lines through a composite foreign key, and addresses; three functions on them.
-/

namespace QueryLowering.Sample

def customer : Entity where
  name := "Customer"
  table := "customers"
  properties := [⟨"Id", .int32, false⟩, ⟨"Name", .utf8, false⟩, ⟨"City", .utf8, true⟩,
    ⟨"AddressId", .int32, true⟩]
  key := ["Id"]
  navigations := [⟨"Orders", "Order", .many, false, [⟨"CustomerId", "Id"⟩], false⟩,
    ⟨"Address", "Address", .one, false, [⟨"AddressId", "Id"⟩], true⟩]

def order : Entity where
  name := "Order"
  table := "orders"
  schema := some "sales"
  properties := [⟨"Id", .int32, false⟩, ⟨"CustomerId", .int32, false⟩, ⟨"Total", .float64, false⟩,
    ⟨"Status", .utf8, true⟩]
  key := ["Id"]
  navigations := [⟨"Customer", "Customer", .one, true, [⟨"CustomerId", "Id"⟩], true⟩,
    ⟨"Lines", "OrderLine", .many, false, [⟨"OrderId", "Id"⟩], false⟩]

def orderLine : Entity where
  name := "OrderLine"
  table := "order_lines"
  schema := some "sales"
  properties := [⟨"OrderId", .int32, false⟩, ⟨"LineNo", .int32, false⟩, ⟨"Sku", .utf8, false⟩,
    ⟨"Quantity", .int32, false⟩]
  key := ["OrderId", "LineNo"]
  navigations := [⟨"Order", "Order", .one, true, [⟨"OrderId", "Id"⟩], true⟩]

def shipment : Entity where
  name := "Shipment"
  table := "shipments"
  properties := [⟨"Id", .int32, false⟩, ⟨"OrderId", .int32, true⟩, ⟨"LineNo", .int32, true⟩,
    ⟨"Carrier", .utf8, true⟩]
  key := ["Id"]
  navigations := [⟨"Line", "OrderLine", .one, false,
    [⟨"OrderId", "OrderId"⟩, ⟨"LineNo", "LineNo"⟩], true⟩]

def address : Entity where
  name := "Address"
  table := "addresses"
  properties := [⟨"Id", .int32, false⟩, ⟨"Street", .utf8, false⟩, ⟨"City", .utf8, false⟩]
  key := ["Id"]

/-- The sample model, which is valid as it stands. -/
def model : Model := ⟨[address, customer, order, orderLine, shipment]⟩

/-- The owner of the sample functions. -/
def functionOwner : String := "DbFunctions"

def catalog : Catalog where
  sets :=
    [⟨⟨functionOwner, "Soundex", []⟩,
        [⟨"soundex", none, .scalar, ⟨[.utf8], none, .utf8⟩⟩]⟩,
     ⟨⟨functionOwner, "Round", []⟩,
        [⟨"round", none, .scalar, ⟨[.float64], none, .float64⟩⟩,
         ⟨"round", none, .scalar, ⟨[.decimal, .int32], none, .decimal⟩⟩]⟩,
     ⟨⟨functionOwner, "RecentOrders", []⟩,
        [⟨"recent_orders", some "sales", .tableValued,
          ⟨[.int32], none, .queryable (.entity "Order")⟩⟩]⟩]

end QueryLowering.Sample
